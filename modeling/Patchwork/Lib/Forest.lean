import Mathlib.Logic.Function.Iterate
import Mathlib.Order.Nat
/-!
# Trees given by parents

A forest is a function `parent`, with the roots as its fixed points. `Below parent a d`
says that `d` is in the tree under `a`. On the natural numbers, where parents come
before their children, the climb to the root ends and the relation is decidable.
-/

namespace Patchwork.Lib

variable {α : Type} {parent parent' : α → α} {a b d : α}

/-- `a` is `d` or one of the nodes above it. -/
def Below (parent : α → α) (a d : α) : Prop := ∃ n, parent^[n] d = a

theorem Below.refl : Below parent a a := ⟨0, rfl⟩

theorem Below.child (h : Below parent a (parent d)) : Below parent a d := by
  obtain ⟨n, hn⟩ := h
  exact ⟨n + 1, hn⟩

theorem Below.trans (h : Below parent a b) (h' : Below parent b d) : Below parent a d := by
  obtain ⟨n, rfl⟩ := h
  obtain ⟨m, rfl⟩ := h'
  exact ⟨n + m, Function.iterate_add_apply parent n m d⟩

theorem Below.up (h : Below parent a d) (hne : d ≠ a) : Below parent a (parent d) := by
  obtain ⟨n, hn⟩ := h
  cases n with
  | zero => exact absurd hn hne
  | succ n => exact ⟨n, hn⟩

/-- The tree under a node only depends on the parents of the nodes in it, if they are kept
on a set closed under `parent`. -/
theorem Below.congr {p : α → Prop} (hp : ∀ x, p x → p (parent x)) (heq : ∀ x, p x → parent' x = parent x)
    (hd : p d) (h : Below parent a d) : Below parent' a d := by
  obtain ⟨n, hn⟩ := h
  refine ⟨n, ?_⟩
  induction n generalizing d with
  | zero => exact hn
  | succ n ih =>
    rw [Function.iterate_succ_apply] at hn ⊢
    rw [heq d hd]
    exact ih (hp d hd) hn

/-! ## Parents that come first -/

section
variable {parent : Nat → Nat} {a d : Nat}

/-- The climb from `d`, at most `n` steps. -/
def reaches (parent : Nat → Nat) (a : Nat) : Nat → Nat → Bool
  | 0, d => d == a
  | n + 1, d => d == a || reaches parent a n (parent d)

theorem below_of_reaches {n : Nat} (h : reaches parent a n d = true) : Below parent a d := by
  induction n generalizing d with
  | zero =>
    obtain rfl : d = a := by simpa [reaches] using h
    exact .refl
  | succ n ih =>
    rw [reaches, Bool.or_eq_true, beq_iff_eq] at h
    rcases h with rfl | h
    · exact .refl
    · exact (ih h).child

/-- A node can only be reached from itself once the climb stands still. -/
theorem eq_of_below_root (hroot : parent d = d) (h : Below parent a d) : a = d := by
  obtain ⟨n, hn⟩ := h
  rw [Function.iterate_fixed hroot] at hn
  exact hn.symm

theorem reaches_of_below (hle : ∀ x, parent x ≤ x) (h : Below parent a d) {n : Nat} (hn : d ≤ n) :
    reaches parent a n d = true := by
  induction n generalizing d with
  | zero =>
    obtain rfl : d = 0 := Nat.le_zero.1 hn
    obtain rfl := eq_of_below_root (Nat.le_zero.1 (hle 0)) h
    simp [reaches]
  | succ n ih =>
    rw [reaches, Bool.or_eq_true, beq_iff_eq]
    by_cases hda : d = a
    · exact .inl hda
    · right
      have hup := h.up hda
      rcases (hle d).lt_or_eq with hlt | heq
      · exact ih hup (by omega)
      · exact absurd (eq_of_below_root heq h).symm hda

theorem reaches_iff (hle : ∀ x, parent x ≤ x) : reaches parent a d d = true ↔ Below parent a d :=
  ⟨below_of_reaches, fun h => reaches_of_below hle h (Nat.le_refl d)⟩

theorem Below.le (hle : ∀ x, parent x ≤ x) (h : Below parent a d) : a ≤ d := by
  obtain ⟨n, hn⟩ := h
  induction n generalizing d with
  | zero => exact hn.ge
  | succ n ih => exact (ih hn).trans (hle d)

end

end Patchwork.Lib
