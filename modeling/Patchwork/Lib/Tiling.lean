import Mathlib.Data.List.Basic
import Mathlib.Order.Nat
/-!
# Segments of memory

A segment is a start and a length. `Apart` says that a list of segments is in the
order of the addresses and that no two overlap, and `Covers` which addresses they
take up. Cutting a segment in two and joining two that are adjacent are one
equivalence, read in both directions. In a list that is apart, segments that are
adjacent in memory are neighbours, and where two families of segments cover the
same addresses, their first segments have the same start and their last ones the
same end.
-/

namespace Patchwork.Lib

open List

abbrev Segment := Nat × Nat

namespace Segment

def stop (s : Segment) : Nat := s.1 + s.2

def Contains (s : Segment) (x : Nat) : Prop := s.1 ≤ x ∧ x < s.stop

instance (s : Segment) (x : Nat) : Decidable (s.Contains x) := inferInstanceAs (Decidable (_ ∧ _))

/-- Two segments that are not empty have no address in common. -/
def Disjoint (s t : Segment) : Prop := s.stop ≤ t.1 ∨ t.stop ≤ s.1

instance (s t : Segment) : Decidable (s.Disjoint t) := inferInstanceAs (Decidable (_ ∨ _))

theorem Disjoint.not_both {s t : Segment} {x : Nat} (h : s.Disjoint t) (hs : s.Contains x) (ht : t.Contains x) :
    False := by
  simp only [Disjoint, Contains] at h hs ht
  omega

theorem disjoint_of_not_both {s t : Segment} (hs : 0 < s.2) (ht : 0 < t.2)
    (h : ∀ x, s.Contains x → ¬ t.Contains x) : s.Disjoint t := by
  have h1 := h s.1
  have h2 := h t.1
  simp only [Disjoint, Contains, stop] at h1 h2 ⊢
  omega

end Segment

def Apart (l : List Segment) : Prop := l.Pairwise fun s t => s.stop ≤ t.1

def Covers (l : List Segment) (x : Nat) : Prop := ∃ s ∈ l, s.Contains x

variable {l l₁ l₂ : List Segment} {s t : Segment}

/-! ## Cutting and joining -/

open Segment

theorem apart_cut {a n m : Nat} : Apart (l₁ ++ (a, n + m) :: l₂) ↔ Apart (l₁ ++ (a, n) :: (a + n, m) :: l₂) := by
  simp only [Apart, pairwise_append, pairwise_cons, mem_cons, stop]
  constructor
  · rintro ⟨h₁, ⟨ha, h₂⟩, h₁₂⟩
    refine ⟨h₁, ⟨?_, ?_, h₂⟩, ?_⟩
    · rintro t (rfl | ht)
      · exact le_rfl
      · have := ha t ht
        omega
    · intro t ht
      have := ha t ht
      omega
    · rintro s hs t (rfl | rfl | ht)
      · exact h₁₂ s hs (a, n + m) (.inl rfl)
      · have := h₁₂ s hs (a, n + m) (.inl rfl)
        dsimp only at this ⊢
        omega
      · exact h₁₂ s hs t (.inr ht)
  · rintro ⟨h₁, ⟨-, hb, h₂⟩, h₁₂⟩
    refine ⟨h₁, ⟨?_, h₂⟩, ?_⟩
    · intro t ht
      have := hb t ht
      omega
    · rintro s hs t (rfl | ht)
      · exact h₁₂ s hs (a, n) (.inl rfl)
      · exact h₁₂ s hs t (.inr (.inr ht))

theorem covers_cut {a n m x : Nat} :
    Covers (l₁ ++ (a, n + m) :: l₂) x ↔ Covers (l₁ ++ (a, n) :: (a + n, m) :: l₂) x := by
  have hcut : Contains (a, n + m) x ↔ Contains (a, n) x ∨ Contains (a + n, m) x := by
    simp only [Contains, stop]
    omega
  simp only [Covers, mem_append, mem_cons, or_and_right, exists_or, exists_eq_left, hcut, or_assoc]

theorem covers_append {x : Nat} : Covers (l₁ ++ l₂) x ↔ Covers l₁ x ∨ Covers l₂ x := by
  simp only [Covers, mem_append, or_and_right, exists_or]

theorem covers_cons {x : Nat} : Covers (s :: l) x ↔ s.Contains x ∨ Covers l x := by
  simp only [Covers, mem_cons, or_and_right, exists_or, exists_eq_left]

theorem Apart.insert (h : Apart (l₁ ++ l₂)) (h₁ : ∀ t ∈ l₁, t.stop ≤ s.1) (h₂ : ∀ t ∈ l₂, s.stop ≤ t.1) :
    Apart (l₁ ++ s :: l₂) := by
  simp only [Apart, pairwise_append, pairwise_cons, mem_cons] at h ⊢
  refine ⟨h.1, ⟨h₂, h.2.1⟩, ?_⟩
  rintro t ht t' (rfl | ht')
  · exact h₁ t ht
  · exact h.2.2 t ht t' ht'

theorem Apart.eq_or_disjoint (h : Apart l) (hs : s ∈ l) (ht : t ∈ l) : s = t ∨ s.Disjoint t := by
  induction l with
  | nil => cases hs
  | cons u l ih =>
    obtain ⟨hu, hl⟩ := pairwise_cons.1 h
    rcases mem_cons.1 hs with rfl | hs'
    · rcases mem_cons.1 ht with rfl | ht'
      · exact .inl rfl
      · exact .inr (.inl (hu t ht'))
    · rcases mem_cons.1 ht with rfl | ht'
      · exact .inr (.inr (hu s hs'))
      · exact ih hl hs' ht'

/-! ## Neighbours -/

section
variable (h : Apart (l₁ ++ s :: l₂)) (hpos : ∀ u ∈ l₁ ++ s :: l₂, 0 < u.2) (ht : t ∈ l₁ ++ s :: l₂)
include h hpos ht

theorem Apart.next_of_adjacent (hadj : s.stop = t.1) : l₂.head? = some t := by
  have hs := hpos s (by simp)
  have htpos := hpos t ht
  simp only [Apart, pairwise_append, pairwise_cons, stop] at h hadj
  obtain ⟨-, ⟨hafter, h₂⟩, hbefore⟩ := h
  rcases mem_append.1 ht with ht | ht
  · have := hbefore t ht s mem_cons_self
    omega
  · rcases mem_cons.1 ht with rfl | ht
    · omega
    · cases l₂ with
      | nil => cases ht
      | cons u l₂ =>
        rcases mem_cons.1 ht with rfl | ht
        · rfl
        · have h1 := hafter u mem_cons_self
          have h2 := (pairwise_cons.1 h₂).1 t ht
          have h3 := hpos u (by simp)
          omega

theorem Apart.prev_of_adjacent (hadj : t.stop = s.1) : l₁.getLast? = some t := by
  have hs := hpos s (by simp)
  have htpos := hpos t ht
  simp only [Apart, pairwise_append, pairwise_cons, stop] at h hadj
  obtain ⟨h₁, ⟨hafter, -⟩, hbefore⟩ := h
  rcases mem_append.1 ht with ht | ht
  · rcases eq_nil_or_concat l₁ with rfl | ⟨l, u, rfl⟩
    · cases ht
    · rw [concat_eq_append] at *
      rw [getLast?_append_of_ne_nil _ (by simp), getLast?_singleton]
      rcases mem_append.1 ht with ht | ht
      · have h1 := hbefore u (by simp) s mem_cons_self
        have h2 := (pairwise_append.1 h₁).2.2 t ht u (by simp)
        have h3 := hpos u (by simp)
        omega
      · rw [mem_singleton.1 ht]
  · rcases mem_cons.1 ht with rfl | ht
    · omega
    · have := hafter t ht
      omega

end

/-! ## Two families that cover the same addresses -/

section Same
variable {r : List Segment} (hrpos : ∀ u ∈ r, 0 < u.2)
include hrpos

theorem Apart.first_start (h : Apart (s :: l)) (hpos : ∀ u ∈ s :: l, 0 < u.2)
    (hsame : ∀ x, Covers (s :: l) x ↔ Covers r x) : ∃ u ∈ r, u.1 = s.1 := by
  have hs := hpos s mem_cons_self
  obtain ⟨u, hu, hc⟩ := (hsame s.1).1 ⟨s, mem_cons_self, le_rfl, Nat.lt_add_of_pos_right hs⟩
  refine ⟨u, hu, ?_⟩
  have hup := hrpos u hu
  obtain ⟨t, ht, hc'⟩ := (hsame u.1).2 ⟨u, hu, le_rfl, Nat.lt_add_of_pos_right hup⟩
  have hst : s.1 ≤ t.1 := by
    rcases mem_cons.1 ht with rfl | ht
    · exact le_rfl
    · exact (Nat.le_add_right _ _).trans ((pairwise_cons.1 h).1 t ht)
  exact Nat.le_antisymm hc.1 (hst.trans hc'.1)

theorem Apart.last_stop (h : Apart (l ++ [s])) (hpos : ∀ u ∈ l ++ [s], 0 < u.2)
    (hsame : ∀ x, Covers (l ++ [s]) x ↔ Covers r x) : ∃ u ∈ r, u.stop = s.stop := by
  have hs := hpos s (by simp)
  have hmem : ∃ t ∈ l ++ [s], t.Contains (s.stop - 1) :=
    ⟨s, by simp, by simp only [Contains, stop]; omega⟩
  obtain ⟨u, hu, hc⟩ := (hsame (s.stop - 1)).1 hmem
  have hup := hrpos u hu
  have hmem' : ∃ t ∈ r, t.Contains (u.stop - 1) :=
    ⟨u, hu, by simp only [Contains, stop]; omega⟩
  obtain ⟨t, ht, hc'⟩ := (hsame (u.stop - 1)).2 hmem'
  have hts : t.stop ≤ s.stop := by
    rcases mem_append.1 ht with ht | ht
    · have := (pairwise_append.1 h).2.2 t ht s (by simp)
      exact this.trans (Nat.le_add_right _ _)
    · rw [mem_singleton.1 ht]
  refine ⟨u, hu, ?_⟩
  simp only [Contains, stop] at *
  omega

end Same

end Patchwork.Lib
