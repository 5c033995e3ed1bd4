import Patchwork.Libstd.Heap
/-!
# The free lists

`Bins h P` says that the free lists have exactly the blocks with `P`, each once and
in the list of its size, and that the bitmap tells which lists are not empty.
-/

namespace Patchwork.Heap

open List Function Lib bitmap_t

variable {env : Env} {h h' : heap_t} {P Q : Nat → Prop} {a b i : Nat} {l : List Nat}

structure Bins (h : heap_t) (P : Nat → Prop) : Prop where
  mem : ∀ i b, b ∈ h.freeLists i ↔ P b ∧ heap_get_bin_index (h.size b) = i
  small : ∀ b, P b → h.size b ≤ HEAP_LARGE_ALLOC_THRESHOLD
  nodup : ∀ i, (h.freeLists i).Nodup
  length : h.freeBitmap.length = HEAP_NUM_BINS
  bits : ∀ i < HEAP_NUM_BINS, h.freeBitmap.bit i = true ↔ h.freeLists i ≠ []

theorem bin_index_lt {size : Nat} (hs : size ≤ HEAP_LARGE_ALLOC_THRESHOLD) :
    heap_get_bin_index size < HEAP_NUM_BINS := by
  rw [heap_get_bin_index, if_neg (Nat.not_lt_of_le hs)]
  split_ifs with hsmall
  · decide
  · simp only [HEAP_NUM_BINS, HEAP_LARGE_ALLOC_THRESHOLD, HEAP_ALIGNMENT, PAGE_SIZE] at hs hsmall ⊢
    omega

theorem bin_index_ne_err {size : Nat} (hs : size ≤ HEAP_LARGE_ALLOC_THRESHOLD) : heap_get_bin_index size ≠ ERR := by
  have hlt := bin_index_lt hs
  have : HEAP_NUM_BINS < ERR := by decide
  omega

/-! ## What the changes leave alone -/

@[simp] theorem header_shrunk : (h.shrunk i l).header = h.header := rfl
@[simp] theorem size_shrunk : (h.shrunk i l).size b = h.size b := rfl
@[simp] theorem heapList_shrunk : (h.shrunk i l).heapList = h.heapList := rfl

/-- Everything but the free lists and their bitmap is the same. -/
structure SameBlocks (h h' : heap_t) : Prop where
  header : h'.header = h.header
  heapList : h'.heapList = h.heapList
  mem : h'.mem = h.mem
  runs : h'.runs = h.runs
  large : h'.large = h.large

theorem same_shrunk (h : heap_t) (i : Nat) (l : List Nat) : SameBlocks h (h.shrunk i l) := ⟨rfl, rfl, rfl, rfl, rfl⟩

theorem same_remove (h : heap_t) (b : Nat) : SameBlocks h (heap_remove_from_free_list h b) := by
  unfold heap_remove_from_free_list
  dsimp only
  split
  · exact ⟨rfl, rfl, rfl, rfl, rfl⟩
  · exact same_shrunk ..

theorem same_add (h : heap_t) (b : Nat) : SameBlocks h (heap_add_to_free_list h b) := by
  unfold heap_add_to_free_list
  dsimp only
  split <;> exact ⟨rfl, rfl, rfl, rfl, rfl⟩

theorem SameBlocks.size (hs : SameBlocks h h') : h'.size = h.size := by
  funext a
  rw [heap_t.size, hs.header]
  rfl

namespace Bins

variable (hb : Bins h P)
include hb

theorem congr (hpq : ∀ x, P x ↔ Q x) : Bins h Q := by
  have : P = Q := funext fun x => propext (hpq x)
  exact this ▸ hb

theorem frame (hl : h'.freeLists = h.freeLists) (hm : h'.freeBitmap = h.freeBitmap)
    (hs : ∀ b, P b → h'.size b = h.size b) : Bins h' P where
  mem i b := by
    rw [hl, hb.mem]
    apply and_congr_right
    intro hp
    rw [hs b hp]
  small b hp := hs b hp ▸ hb.small b hp
  nodup i := hl ▸ hb.nodup i
  length := hm ▸ hb.length
  bits i hi := by
    rw [hm, hl]
    exact hb.bits i hi

theorem shrunk (hp : P b) (hi : heap_get_bin_index (h.size b) = i)
    (hl : ∀ x, x ∈ l ↔ x ∈ h.freeLists i ∧ x ≠ b) (hn : l.Nodup) : Bins (h.shrunk i l) fun x => P x ∧ x ≠ b := by
  have hlt : i < HEAP_NUM_BINS := hi ▸ bin_index_lt (hb.small b hp)
  have hlists : ∀ j, j ≠ i → (h.shrunk i l).freeLists j = h.freeLists j := fun j hj => update_of_ne hj _ _
  have hlist : (h.shrunk i l).freeLists i = l := update_self ..
  refine
    { mem := fun j x => ?_
      small := fun x hx => hb.small x hx.1
      nodup := fun j => ?_
      length := ?_
      bits := fun j hj => ?_ }
  · by_cases hj : j = i
    · rw [hj, hlist, hl, hb.mem, size_shrunk]
      tauto
    · rw [hlists j hj, hb.mem, size_shrunk]
      constructor
      · rintro ⟨hx, hk⟩
        refine ⟨⟨hx, ?_⟩, hk⟩
        rintro rfl
        exact hj (hk.symm.trans hi)
      · rintro ⟨⟨hx, -⟩, hk⟩
        exact ⟨hx, hk⟩
  · by_cases hj : j = i
    · rw [hj, hlist]
      exact hn
    · rw [hlists j hj]
      exact hb.nodup j
  · simp only [heap_t.shrunk]
    split_ifs
    · rw [length_clear, hb.length]
    · exact hb.length
  · have hbit : (h.shrunk i l).freeBitmap.bit j = (!decide (j = i ∧ l = []) && h.freeBitmap.bit j) := by
      simp only [heap_t.shrunk]
      split_ifs with hnil
      · rw [bit_clear, hb.length]
        simp [hlt, hnil]
      · simp [hnil]
    rw [hbit]
    by_cases hji : j = i
    · rw [hji, hlist]
      have hold : h.freeBitmap.bit i = true := by
        rw [hb.bits i hlt]
        intro hnil
        have := (hb.mem i b).2 ⟨hp, hi⟩
        rw [hnil] at this
        cases this
      simp [hold]
    · rw [hlists j hji, ← hb.bits j hj]
      simp [hji]

theorem remove (hp : P b) : Bins (heap_remove_from_free_list h b) fun x => P x ∧ x ≠ b := by
  unfold heap_remove_from_free_list
  rw [if_neg (bin_index_ne_err (hb.small b hp))]
  refine hb.shrunk hp rfl (fun x => ?_) ((hb.nodup _).erase b)
  rw [(hb.nodup _).mem_erase_iff, and_comm]

theorem add (hp : ¬ P b) (hs : h.size b ≤ HEAP_LARGE_ALLOC_THRESHOLD) :
    Bins (heap_add_to_free_list h b) fun x => P x ∨ x = b := by
  have hlt := bin_index_lt hs
  have hsize := (same_add h b).size
  unfold heap_add_to_free_list at hsize ⊢
  rw [if_neg (bin_index_ne_err hs)] at hsize ⊢
  generalize hi : heap_get_bin_index (h.size b) = i at hlt hsize ⊢
  refine
    { mem := fun j x => ?_
      small := ?_
      nodup := fun j => ?_
      length := (length_set _ _).trans hb.length
      bits := fun j hj => ?_ }
  · rw [hsize]
    by_cases hj : j = i
    · subst hj
      simp only [update_self, mem_append, mem_singleton, hb.mem]
      constructor
      · rintro (⟨hx, hk⟩ | rfl)
        · exact ⟨.inl hx, hk⟩
        · exact ⟨.inr rfl, hi⟩
      · rintro ⟨hx | rfl, hk⟩
        · exact .inl ⟨hx, hk⟩
        · exact .inr rfl
    · simp only [update_of_ne hj, hb.mem]
      constructor
      · rintro ⟨hx, hk⟩
        exact ⟨.inl hx, hk⟩
      · rintro ⟨hx | rfl, hk⟩
        · exact ⟨hx, hk⟩
        · exact absurd (hk.symm.trans hi) hj
  · rintro x (hx | rfl)
    · exact hsize ▸ hb.small x hx
    · exact hsize ▸ hs
  · by_cases hj : j = i
    · simp only [hj, update_self]
      refine nodup_append.2 ⟨hb.nodup i, by simp, fun x hx y hy => ?_⟩
      rw [mem_singleton.1 hy]
      rintro rfl
      exact hp ((hb.mem i x).1 hx).1
    · simp only [update_of_ne hj]
      exact hb.nodup j
  · rw [bit_set, hb.length]
    by_cases hji : j = i
    · simp [hji, hlt]
    · simp only [update_of_ne hji, ← hb.bits j hj]
      simp [hji]

/-- What the search in the bitmap finds is a block that is large enough. -/
theorem pop (index : Nat) :
    popFree h index = some (h, none) ∨
      ∃ b i l, popFree h index = some (h.shrunk i l, some b) ∧ P b ∧ index ≤ heap_get_bin_index (h.size b) ∧
        Bins (h.shrunk i l) fun x => P x ∧ x ≠ b := by
  have hfind := find_first_set_found h.freeBitmap index (show HEAP_NUM_BINS ≤ _ from hb.length.ge)
  unfold popFree
  generalize bitmap_find_first_set h.freeBitmap index HEAP_NUM_BINS = i at hfind
  rcases hfind with ⟨hle, hlt, -, hbit, -⟩ | ⟨hnone, -⟩
  · right
    rw [if_pos (by rw [hb.length]; omega)]
    cases hl : h.freeLists i with
    | nil => exact absurd hl ((hb.bits i hlt).1 hbit)
    | cons b l =>
      obtain ⟨hp, hi⟩ := (hb.mem i b).1 (hl ▸ mem_cons_self)
      have hn := hb.nodup i
      rw [hl, nodup_cons] at hn
      refine ⟨b, i, l, rfl, hp, hi ▸ hle, hb.shrunk hp hi (fun x => ?_) hn.2⟩
      rw [hl, mem_cons]
      constructor
      · intro hx
        refine ⟨.inr hx, ?_⟩
        rintro rfl
        exact hn.1 hx
      · rintro ⟨hx | hx, hne⟩
        · exact absurd hx hne
        · exact hx
  · left
    rw [if_neg (not_not.2 hnone)]

end Bins

end Patchwork.Heap
