import Mathlib.Logic.Function.Basic
import Mathlib.Data.List.Basic
/-!
# Lists threaded through their elements

The elements of a free list keep the index of the next one, and the last one keeps
`null`. `Linked null next i l` says that going along `next` from `i` gives the
elements of `l`, in order, and then `null`.
-/

namespace Patchwork.Lib

variable {I : Type} {null i j : I} {next next' : I → I} {l : List I}

def Linked (null : I) (next : I → I) : I → List I → Prop
  | i, [] => i = null
  | i, j :: l => i = j ∧ i ≠ null ∧ Linked null next (next i) l

namespace Linked

section
variable (h : Linked null next i l)
include h

theorem congr (hnext : ∀ j ∈ l, next' j = next j) : Linked null next' i l := by
  induction l generalizing i with
  | nil => exact h
  | cons j l ih =>
    obtain ⟨rfl, hi, hl⟩ := h
    refine ⟨rfl, hi, ?_⟩
    rw [hnext i List.mem_cons_self]
    exact ih hl fun k hk => hnext k (List.mem_cons_of_mem _ hk)

theorem update [DecidableEq I] (hj : j ∉ l) (v : I) : Linked null (Function.update next j v) i l := by
  apply h.congr
  intro k hk
  apply Function.update_of_ne
  rintro rfl
  exact hj hk

theorem push (hj : j ≠ null) (hnext : next j = i) : Linked null next j (j :: l) :=
  ⟨rfl, hj, by rw [hnext]; exact h⟩

theorem pop (hi : i ≠ null) : ∃ l', l = i :: l' ∧ Linked null next (next i) l' := by
  cases l with
  | nil => exact absurd h hi
  | cons j l =>
    obtain ⟨rfl, -, hl⟩ := h
    exact ⟨l, rfl, hl⟩

theorem null_notMem : null ∉ l := by
  induction l generalizing i with
  | nil => exact List.not_mem_nil
  | cons j l ih =>
    obtain ⟨rfl, hi, hl⟩ := h
    rw [List.mem_cons, not_or]
    exact ⟨Ne.symm hi, ih hl⟩

end

end Linked

end Patchwork.Lib
