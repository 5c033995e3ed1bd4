import Mathlib.Data.List.Nodup
import Mathlib.Logic.Function.Basic
/-!
# Rings of doubly linked nodes

Every node has a link to the next node and one to the previous node. A list is
kept as a ring through a head node: `Ring k x l` says that the links lead from
the head `x` through the nodes `l`, in this order and without repetition, back
to `x`, and the same way backwards. The rules say what the ring is after a node
is linked in at its end or taken out, and that a ring does not change when links
of other nodes do. `Rings` is a family of rings that share no node.
-/

namespace Patchwork.Lib

open Function List

variable {N : Type}

structure Links (N : Type) where
  prev : N → N
  next : N → N

variable {k k' : Links N}

/-- The links lead from `x` through the nodes of the list to `y`, and back. -/
def Seg (k : Links N) : N → List N → N → Prop
  | x, [], y => k.next x = y ∧ k.prev y = x
  | x, z :: l, y => (k.next x = z ∧ k.prev z = x) ∧ Seg k z l y

variable {x y e : N} {l₁ l₂ : List N}

theorem seg_append {z : N} : Seg k x (l₁ ++ z :: l₂) y ↔ Seg k x l₁ z ∧ Seg k z l₂ y := by
  induction l₁ generalizing x with
  | nil => exact Iff.rfl
  | cons w l₁ ih => simp only [cons_append, Seg, ih, and_assoc]

variable {l : List N}

/-- A segment whose links to the next node change only at its last node, and
whose links to the previous node do not change, now leads where that one does. -/
theorem Seg.redirect {y' : N} (h : Seg k x l y)
    (hnext : ∀ z ∈ (x :: l).dropLast, k'.next z = k.next z) (hprev : ∀ z ∈ l, k'.prev z = k.prev z)
    (hn : k'.next (k.prev y) = y') (hp : k'.prev y' = k.prev y) : Seg k' x l y' := by
  induction l generalizing x with
  | nil =>
    rw [h.2] at hn hp
    exact ⟨hn, hp⟩
  | cons w l ih =>
    obtain ⟨⟨h1, h2⟩, h⟩ := h
    refine ⟨⟨?_, ?_⟩, ih h (fun z hz => hnext z ?_) fun z hz => hprev z (mem_cons_of_mem _ hz)⟩
    · rw [hnext x (by simp), h1]
    · rw [hprev w mem_cons_self, h2]
    · rw [dropLast_cons_cons]
      exact mem_cons_of_mem _ hz

theorem Seg.prev_eq_getLast (h : Seg k x l y) : k.prev y = (x :: l).getLast (cons_ne_nil x l) := by
  induction l generalizing x with
  | nil => exact h.2
  | cons w l ih =>
    rw [ih h.2]
    exact (getLast_cons _).symm

theorem Seg.next_eq (h : Seg k x l y) : k.next x = l.headD y := by
  cases l with
  | nil => exact h.1
  | cons w l => exact h.1.1

theorem Seg.frame (h : Seg k x l y) (hnext : ∀ z ∈ x :: l, k'.next z = k.next z)
    (hprev : ∀ z ∈ y :: l, k'.prev z = k.prev z) : Seg k' x l y := by
  refine h.redirect (fun z hz => hnext z (dropLast_subset _ hz))
    (fun z hz => hprev z (mem_cons_of_mem _ hz)) ?_ (hprev y mem_cons_self)
  have hmem : k.prev y ∈ x :: l := by
    rw [h.prev_eq_getLast]
    exact getLast_mem _
  rw [hnext _ hmem]
  clear hnext hprev hmem
  induction l generalizing x with
  | nil => rw [h.2, h.1]
  | cons w l ih => exact ih h.2

/-- The nodes `l` are linked, in this order, into a ring through the head `x`. -/
structure Ring (k : Links N) (x : N) (l : List N) : Prop where
  nodup : (x :: l).Nodup
  seg : Seg k x l x

theorem Ring.next_head (h : Ring k x l) : k.next x = l.headD x := h.seg.next_eq

theorem Ring.next_mid (h : Ring k x (l₁ ++ e :: l₂)) : k.next e = l₂.headD x :=
  (seg_append.1 h.seg).2.next_eq

theorem Ring.frame (h : Ring k x l) (hk : ∀ z ∈ x :: l, k'.next z = k.next z ∧ k'.prev z = k.prev z) : Ring k' x l :=
  ⟨h.nodup, h.seg.frame (fun z hz => (hk z hz).1) fun z hz => (hk z hz).2⟩

theorem Ring.prev_head_mem (h : Ring k x l) : k.prev x ∈ x :: l := by
  rw [h.seg.prev_eq_getLast]
  exact getLast_mem _

theorem Ring.neighbours_mem (h : Ring k x l) (he : e ∈ l) : k.prev e ∈ x :: l ∧ k.next e ∈ x :: l := by
  obtain ⟨l₁, l₂, rfl⟩ := append_of_mem he
  constructor
  · rw [(seg_append.1 h.seg).1.prev_eq_getLast, ← cons_append]
    exact mem_append_left _ (getLast_mem _)
  · rw [h.next_mid]
    cases l₂ with
    | nil => exact mem_cons_self
    | cons w l₂ => simp

theorem Ring.prev_ne (h : Ring k x l) (he : e ∈ l) : k.prev e ≠ e := by
  obtain ⟨l₁, l₂, rfl⟩ := append_of_mem he
  have hd := h.nodup
  rw [← cons_append, nodup_append] at hd
  rw [(seg_append.1 h.seg).1.prev_eq_getLast]
  exact hd.2.2 _ (getLast_mem _) e mem_cons_self

theorem ring_nil (k : Links N) (hn : k.next x = x) (hp : k.prev x = x) : Ring k x [] :=
  ⟨nodup_singleton x, hn, hp⟩

/-- A family of rings without a common node. -/
structure Rings {ι : Type} (k : Links N) (head : ι → N) (l : ι → List N) : Prop where
  ring : ∀ i, Ring k (head i) (l i)
  apart : ∀ i j, i ≠ j → ∀ x ∈ head i :: l i, x ∉ head j :: l j

/-! ## Changing the links -/

section Updates
variable [DecidableEq N]

namespace Links

def setPrev (k : Links N) (x y : N) : Links N := { k with prev := update k.prev x y }
def setNext (k : Links N) (x y : N) : Links N := { k with next := update k.next x y }

/-- Makes `y` the node after `x`. -/
def link (k : Links N) (x y : N) : Links N := (k.setNext x y).setPrev y x

theorem next_link (k : Links N) (x y z : N) : (k.link x y).next z = if z = x then y else k.next z := by
  simp [link, setNext, setPrev, update_apply]

theorem prev_link (k : Links N) (x y z : N) : (k.link x y).prev z = if z = y then x else k.prev z := by
  simp [link, setNext, setPrev, update_apply]

end Links

theorem Ring.insert_last (h : Ring k x l) (he : e ∉ x :: l) : Ring ((k.link (k.prev x) e).link e x) x (l ++ [e]) := by
  have hx : x ≠ e := fun h => he (h ▸ mem_cons_self)
  have hlast := h.seg.prev_eq_getLast
  have hlastmem := h.prev_head_mem
  have hpe : k.prev x ≠ e := fun h => he (h ▸ hlastmem)
  refine ⟨?_, ?_⟩
  · rw [← cons_append, nodup_append]
    refine ⟨h.nodup, nodup_singleton e, fun a ha b hb => ?_⟩
    rw [mem_singleton.1 hb]
    exact fun hae => he (hae ▸ ha)
  refine seg_append.2 ⟨?_, ?_⟩
  · refine h.seg.redirect (fun z hz => ?_) (fun z hz => ?_) ?_ ?_
    · -- A node before the last one is neither the last one nor the new one.
      have hz' : z ∈ x :: l := dropLast_subset _ hz
      have hne : z ≠ k.prev x := by
        rw [hlast]
        have hd := h.nodup
        rw [← dropLast_append_getLast (cons_ne_nil x l), nodup_append] at hd
        exact hd.2.2 z hz _ mem_cons_self
      have hze : z ≠ e := fun h => he (h ▸ hz')
      simp only [Links.next_link, if_neg hne, if_neg hze]
    · have hze : z ≠ e := fun h => he (h ▸ mem_cons_of_mem _ hz)
      have hzx : z ≠ x := fun hzx => (nodup_cons.1 h.nodup).1 (hzx ▸ hz)
      simp only [Links.prev_link, if_neg hze, if_neg hzx]
    · simp only [Links.next_link, if_neg hpe, if_true]
    · simp only [Links.prev_link, if_neg hx.symm, if_true]
  · constructor
    · simp only [Links.next_link, if_true]
    · simp only [Links.prev_link, if_true]

theorem Ring.erase (h : Ring k x (l₁ ++ e :: l₂)) : Ring ((k.link (k.prev e) (k.next e)).link e e) x (l₁ ++ l₂) := by
  obtain ⟨h1, h2⟩ := seg_append.1 h.seg
  have hd := h.nodup
  rw [← cons_append, nodup_append] at hd
  obtain ⟨hd1, hd2, hd12⟩ := hd
  have hlast := h1.prev_eq_getLast
  have hpmem : k.prev e ∈ x :: l₁ := by
    rw [hlast]
    exact getLast_mem _
  have hpe : k.prev e ≠ e := h.prev_ne (by simp)
  have hnext : k.next e ≠ e := by
    rw [h2.next_eq]
    cases l₂ with
    | nil => exact fun he => hd12 x mem_cons_self e mem_cons_self he
    | cons n l₂ =>
      intro he
      exact (nodup_cons.1 hd2).1 (he ▸ mem_cons_self)
  refine ⟨?_, ?_⟩
  · rw [← cons_append, nodup_append]
    exact ⟨hd1, (nodup_cons.1 hd2).2, fun a ha b hb => hd12 a ha b (mem_cons_of_mem _ hb)⟩
  -- The part before the node now leads to what was after it.
  have hfirst : Seg ((k.link (k.prev e) (k.next e)).link e e) x l₁ (k.next e) := by
    refine h1.redirect (fun z hz => ?_) (fun z hz => ?_) ?_ ?_
    · have hze : z ≠ e := fun he => hd12 z (dropLast_subset _ hz) e mem_cons_self he
      have hzp : z ≠ k.prev e := by
        rw [hlast]
        have hd := hd1
        rw [← dropLast_append_getLast (cons_ne_nil x l₁), nodup_append] at hd
        exact hd.2.2 z hz _ mem_cons_self
      simp only [Links.next_link, if_neg hze, if_neg hzp]
    · have hze : z ≠ e := fun he => hd12 z (mem_cons_of_mem _ hz) e mem_cons_self he
      have hzn : z ≠ k.next e := by
        rw [h2.next_eq]
        cases l₂ with
        | nil => exact fun (he : z = x) => (nodup_cons.1 hd1).1 (he ▸ hz)
        | cons n l₂ => exact fun he => hd12 z (mem_cons_of_mem _ hz) n (by simp) he
      simp only [Links.prev_link, if_neg hze, if_neg hzn]
    · simp only [Links.next_link, if_neg hpe, if_true]
    · simp only [Links.prev_link, if_neg hnext, if_true]
  rw [h2.next_eq] at hfirst hnext
  cases l₂ with
  | nil =>
    rw [append_nil]
    rw [h2.next_eq]
    exact hfirst
  | cons n l₂ =>
    refine seg_append.2 ⟨by rw [h2.next_eq]; exact hfirst, ?_⟩
    rw [nodup_cons, nodup_cons] at hd2
    refine h2.2.frame (fun z hz => ?_) fun z hz => ?_
    · have hze : z ≠ e := fun he => hd2.1 (he ▸ hz)
      have hzp : z ≠ k.prev e := fun he => hd12 _ hpmem z (mem_cons_of_mem _ hz) he.symm
      simp only [Links.next_link, if_neg hze, if_neg hzp]
    · have hze : z ≠ e := by
        rcases mem_cons.1 hz with rfl | hz
        · exact fun he => hd12 z mem_cons_self e mem_cons_self he
        · exact fun he => hd2.1 (he ▸ mem_cons_of_mem _ hz)
      have hzn : z ≠ k.next e := by
        rw [h2.next_eq]
        rcases mem_cons.1 hz with rfl | hz
        · exact fun he => hd12 z mem_cons_self n (by simp) he
        · exact fun (he : z = n) => hd2.2.1 (he ▸ hz)
      simp only [Links.prev_link, if_neg hze, if_neg hzn]

variable {ι : Type} [DecidableEq ι] {head : ι → N} {l : ι → List N}

omit [DecidableEq N] in
/-- The rings of a family after one of them has changed, with links only inside
the old and the new one. -/
theorem Rings.update {i : ι} {li : List N} (h : Rings k head l) (hi : Ring k' (head i) li)
    (hk : ∀ x ∉ head i :: l i, x ∉ li → k'.next x = k.next x ∧ k'.prev x = k.prev x)
    (hnew : ∀ x ∈ li, ∀ j, j ≠ i → x ∉ head j :: l j) : Rings k' head (update l i li) := by
  have hout : ∀ j, j ≠ i → ∀ x ∈ head i :: li, x ∉ head j :: l j := by
    intro j hj x hx
    rcases mem_cons.1 hx with rfl | hx
    · exact h.apart i j hj.symm _ mem_cons_self
    · exact hnew x hx j hj
  refine ⟨fun j => ?_, fun j j' hjj' x hx => ?_⟩
  · by_cases hj : j = i
    · subst hj
      rw [update_self]
      exact hi
    · rw [update_of_ne hj]
      refine (h.ring j).frame fun z hz => hk z ?_ fun hz' => hnew z hz' j hj hz
      exact h.apart j i hj z hz
  · by_cases hj : j = i
    · subst hj
      rw [update_self] at hx
      rw [update_of_ne hjj'.symm]
      exact hout j' hjj'.symm x hx
    · rw [update_of_ne hj] at hx
      by_cases hj' : j' = i
      · subst hj'
        rw [update_self]
        exact fun hx' => hout j hj x hx' hx
      · rw [update_of_ne hj']
        exact h.apart j j' hjj' x hx

theorem Rings.insert_last (h : Rings k head l) (i : ι) (he : ∀ j, e ∉ head j :: l j) :
    Rings ((k.link (k.prev (head i)) e).link e (head i)) head (Function.update l i (l i ++ [e])) := by
  refine h.update ((h.ring i).insert_last (he i)) (fun x hx hx' => ?_) fun x hx j hj => ?_
  · have hxe : x ≠ e := fun h => hx' (h ▸ by simp)
    have hxi : x ≠ head i := fun h => hx (h ▸ mem_cons_self)
    have hxp : x ≠ k.prev (head i) := fun hp => hx (hp ▸ (h.ring i).prev_head_mem)
    simp only [Links.next_link, Links.prev_link, if_neg hxe, if_neg hxi, if_neg hxp, and_self]
  · rcases mem_append.1 hx with hx | hx
    · exact h.apart i j hj.symm x (mem_cons_of_mem _ hx)
    · rw [mem_singleton.1 hx]
      exact he j

theorem Rings.erase {i : ι} (h : Rings k head l) (hl : l i = l₁ ++ e :: l₂) :
    Rings ((k.link (k.prev e) (k.next e)).link e e) head (Function.update l i (l₁ ++ l₂)) := by
  have hi := h.ring i
  have he : e ∈ l i := by simp [hl]
  have hnb := hi.neighbours_mem he
  refine h.update (hl ▸ hi).erase (fun x hx _ => ?_) fun x hx j hj => ?_
  · have hxe : x ≠ e := fun h => hx (h ▸ mem_cons_of_mem _ he)
    have hxp : x ≠ k.prev e := fun h => hx (h ▸ hnb.1)
    have hxn : x ≠ k.next e := fun h => hx (h ▸ hnb.2)
    simp only [Links.next_link, Links.prev_link, if_neg hxe, if_neg hxp, if_neg hxn, and_self]
  · refine h.apart i j hj.symm x (mem_cons_of_mem _ ?_)
    rw [hl]
    rcases mem_append.1 hx with hx | hx
    · exact mem_append_left _ hx
    · exact mem_append_right _ (mem_cons_of_mem _ hx)

end Updates

end Patchwork.Lib
