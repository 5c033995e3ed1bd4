import Patchwork.Mem.Tags
import Patchwork.Mem.Vmm
/-!
# What the operations on an address space do to its callbacks

The number of pages a callback is for is kept twice: in the array of callbacks,
and as the number of pages in the page table with its ID. `Counted` says that
they agree. Each operation below either changes neither (`SameCallbacks`,
`SameTags`), adds a callback with its pages, or takes the pages of a region from
their callbacks.
-/

namespace Patchwork.Space

open Option Function Paging bitmap_t

variable {σ τ : Type} (env : Env σ)

/-- The callback ID is taken. -/
def Allocated (space : space_t σ τ) (id : Nat) : Prop :=
  id < PML_MAX_CALLBACK ∧ space.callbackBitmap.bit id = true

/-- What the callbacks need to be found and called. -/
structure WellFormed (space : space_t σ τ) : Prop where
  length : space.callbackBitmap.length = PML_MAX_CALLBACK
  first : space.callbackBitmap.firstZeroIdx = 0
  array : ∀ id, Allocated space id → id < space.callbacksLength
  func : ∀ id, Allocated space id → (space.callbacks id).func.isSome = true

/-- Each callback is for as many pages as have its ID, and for one at least. -/
structure Counted (space : space_t σ τ) : Prop extends WellFormed space where
  amount : ∀ id, Allocated space id → (space.callbacks id).pageAmount = tagged space.pageTable id
  positive : ∀ id, Allocated space id → 0 < tagged space.pageTable id
  free : ∀ id < PML_MAX_CALLBACK, ¬Allocated space id → tagged space.pageTable id = 0

/-! ## Operations that leave the callbacks alone -/

structure SameCallbacks (space space' : space_t σ τ) : Prop where
  length : space'.callbackBitmap.length = space.callbackBitmap.length
  first : space.callbackBitmap.firstZeroIdx = 0 → space'.callbackBitmap.firstZeroIdx = 0
  bits : ∀ id < PML_MAX_CALLBACK, space'.callbackBitmap.bit id = space.callbackBitmap.bit id
  callbacks : ∀ id, Allocated space id → space'.callbacks id = space.callbacks id
  callbacksLength : space.callbacksLength ≤ space'.callbacksLength
  ran : space'.ran = space.ran

variable {space' space'' : space_t σ τ} {virtAddr pageAmount n : Nat} {func : τ} {space : space_t σ τ}

namespace SameCallbacks

theorem refl (space : space_t σ τ) : SameCallbacks space space :=
  ⟨rfl, id, fun _ _ => rfl, fun _ _ => rfl, Nat.le_refl _, rfl⟩

theorem allocated_iff (h : SameCallbacks space space') (id : Nat) : Allocated space' id ↔ Allocated space id :=
  and_congr_right fun hid => by rw [h.bits id hid]

theorem trans (h : SameCallbacks space space') (h' : SameCallbacks space' space'') :
    SameCallbacks space space'' where
  length := h'.length.trans h.length
  first h0 := h'.first (h.first h0)
  bits id hid := (h'.bits id hid).trans (h.bits id hid)
  callbacks id hid := (h'.callbacks id ((h.allocated_iff id).2 hid)).trans (h.callbacks id hid)
  callbacksLength := h.callbacksLength.trans h'.callbacksLength
  ran := h'.ran.trans h.ran

theorem of_eq (hb : space'.callbackBitmap = space.callbackBitmap)
    (hc : space'.callbacks = space.callbacks) (hl : space'.callbacksLength = space.callbacksLength)
    (hr : space'.ran = space.ran) : SameCallbacks space space' :=
  ⟨by rw [hb], by rw [hb]; exact id, by simp [hb], by simp [hc], by rw [hl], hr⟩

theorem wellFormed (h : SameCallbacks space space') (hw : WellFormed space) :
    WellFormed space' where
  length := h.length.trans hw.length
  first := h.first hw.first
  array id hid := (hw.array id ((h.allocated_iff id).1 hid)).trans_le h.callbacksLength
  func id hid := by
    rw [h.callbacks id ((h.allocated_iff id).1 hid)]
    exact hw.func id ((h.allocated_iff id).1 hid)

theorem counted (h : SameCallbacks space space')
    (ht : SameTags space.pageTable space'.pageTable) (hc : Counted space) : Counted space' where
  toWellFormed := h.wellFormed hc.toWellFormed
  amount id hid := by
    have hid' := (h.allocated_iff id).1 hid
    rw [h.callbacks id hid', hc.amount id hid', ht.tagged_eq hid.1]
  positive id hid := by
    rw [ht.tagged_eq hid.1]
    exact hc.positive id ((h.allocated_iff id).1 hid)
  free id hid hn := by
    rw [ht.tagged_eq hid]
    exact hc.free id hid (mt (h.allocated_iff id).2 hn)

end SameCallbacks

/-- Nothing about the callbacks and their pages has changed. -/
def Untouched (space space' : space_t σ τ) : Prop :=
  SameCallbacks space space' ∧ SameTags space.pageTable space'.pageTable

theorem Untouched.refl (space : space_t σ τ) : Untouched space space := ⟨.refl space, .refl _⟩

theorem Untouched.trans (h : Untouched space space')
    (h' : Untouched space' space'') : Untouched space space'' := ⟨h.1.trans h'.1, h.2.trans h'.2⟩

/-- Only the page table changes, and no page of a callback. -/
theorem untouched_table (space : space_t σ τ) {t : pml_t} (mem : σ) (h : SameTags space.pageTable t) :
    Untouched space { space with pageTable := t, mem := mem } := ⟨.of_eq rfl rfl rfl rfl, h⟩

theorem untouched_unmap (space : space_t σ τ) (h : Untagged space.pageTable (vpns virtAddr pageAmount)) :
    Untouched space (vmm_page_table_unmap_with_shootdown env space virtAddr pageAmount) :=
  untouched_table space _ (sameTags_unmap env space.mem h)

/-- A region is found without a change to the page table or the callbacks. -/
structure Started (space space' : space_t σ τ) : Prop where
  pageTable : space'.pageTable = space.pageTable
  bitmap : space'.callbackBitmap = space.callbackBitmap
  callbacks : space'.callbacks = space.callbacks
  callbacksLength : space'.callbacksLength = space.callbacksLength
  ran : space'.ran = space.ran

theorem Started.refl (space : space_t σ τ) : Started space space := ⟨rfl, rfl, rfl, rfl, rfl⟩

theorem Started.untouched (h : Started space space') : Untouched space space' :=
  ⟨.of_eq h.bitmap h.callbacks h.callbacksLength h.ran, by rw [h.pageTable]; exact .refl _⟩

theorem started_find_free_region {alignment addr : Nat}
    (h : space_find_free_region env space pageAmount alignment = some (addr, space')) : Started space space' := by
  unfold space_find_free_region at h
  split at h
  · cases h
  · cases h
    exact ⟨rfl, rfl, rfl, rfl, rfl⟩
  · split at h
    · cases h
    · cases h
      exact ⟨rfl, rfl, rfl, rfl, rfl⟩
    · cases h
      exact .refl _

theorem started_mapping_start {physAddr length alignment : Nat}
    {flags : pml_flags_t} {r : Except errno_t space_mapping_t}
    (h : space_mapping_start env space virtAddr physAddr length alignment flags = some (r, space')) :
    Started space space' ∧ ∀ mapping, r = .ok mapping → mapping.flags = flags := by
  unfold space_mapping_start at h
  simp only at h
  split at h
  · cases h
    exact ⟨.refl _, nofun⟩
  split at h
  · cases h
    exact ⟨.refl _, nofun⟩
  split at h
  · cases h
    exact ⟨.refl _, nofun⟩
  split at h
  · cases h
    exact ⟨.refl _, nofun⟩
  split at h
  · split at h
    · cases h
    · rename_i addr space1 hfind
      have hs := started_find_free_region env hfind
      split at h
      · cases h
        exact ⟨hs, nofun⟩
      · cases h
        refine ⟨hs, fun mapping hm => ?_⟩
        rw [← Except.ok.inj hm]
  · split at h
    · cases h
    · split at h
      · cases h
        exact ⟨.refl _, nofun⟩
      · cases h
        refine ⟨.refl _, fun mapping hm => ?_⟩
        rw [← Except.ok.inj hm]

theorem started_mapping_end (space : space_t σ τ) (mapping : space_mapping_t) (err : Option errno_t) :
    Started space (space_mapping_end space mapping err).2 := by
  cases err with
  | some err => exact .refl space
  | none =>
    show Started space (space_update_free_address space mapping.virtAddr mapping.pageAmount)
    unfold space_update_free_address
    simp only
    split
    · exact ⟨rfl, rfl, rfl, rfl, rfl⟩
    · exact .refl space

/-! ## A new callback -/

/-- The callback ID was free and is now for `n` pages and the function `func`. -/
structure NewCallback (space space' : space_t σ τ) (id n : Nat) (func : τ) : Prop where
  lt : id < PML_MAX_CALLBACK
  wasFree : ¬Allocated space id
  length : space'.callbackBitmap.length = space.callbackBitmap.length
  first : space'.callbackBitmap.firstZeroIdx = space.callbackBitmap.firstZeroIdx
  bits : ∀ j, space'.callbackBitmap.bit j = (decide (j = id) || space.callbackBitmap.bit j)
  callback : space'.callbacks id = { func := some func, pageAmount := n }
  callbacks : ∀ j, Allocated space j → space'.callbacks j = space.callbacks j
  callbacksLength : space.callbacksLength ≤ space'.callbacksLength
  array : id < space'.callbacksLength
  ran : space'.ran = space.ran

variable {id : Nat}

theorem NewCallback.allocated_iff
    (h : NewCallback space space' id n func) (j : Nat) : Allocated space' j ↔ j = id ∨ Allocated space j := by
  unfold Allocated
  rw [h.bits, Bool.or_eq_true, decide_eq_true_eq]
  constructor
  · rintro ⟨hj, rfl | hb⟩
    · exact .inl rfl
    · exact .inr ⟨hj, hb⟩
  · rintro (rfl | ⟨hj, hb⟩)
    · exact ⟨h.lt, .inl rfl⟩
    · exact ⟨hj, .inr hb⟩

/-- Either there is a new callback, or nothing has changed and there is no ID. -/
theorem alloc_callback_spec (hw : WellFormed space) (pageAmount : Nat) (func : τ) :
    ∃ id space', space_alloc_callback env space pageAmount func = (id, space') ∧ space'.pageTable = space.pageTable ∧
      (id = PML_MAX_CALLBACK ∧ SameCallbacks space space' ∨ NewCallback space space' id pageAmount func) := by
  have hmax : PML_MAX_CALLBACK = 255 := rfl
  have hlen : space.callbackBitmap.length = 255 := hw.length
  unfold space_alloc_callback
  have hfound := find_first_clear_found space.callbackBitmap 0 (show PML_MAX_CALLBACK ≤ _ by omega)
    fun j _ hj => by rw [hw.first] at hj; omega
  generalize bitmap_find_first_clear space.callbackBitmap 0 PML_MAX_CALLBACK = id at hfound
  simp only
  split
  · exact ⟨_, _, rfl, rfl, .inl ⟨rfl, .refl space⟩⟩
  · rename_i hne
    have hid : id < 255 ∧ space.callbackBitmap.bit id = false := by
      rcases hfound with ⟨-, h1, -, h2, -⟩ | ⟨h1, -⟩
      · exact ⟨h1, h2⟩
      · rw [h1, hlen] at hne
        exact absurd rfl hne
    have hmod : id % 2 ^ 8 = id := Nat.mod_eq_of_lt (by omega)
    rw [hmod]
    have hfree : ¬Allocated space id := fun ha => by
      rw [ha.2] at hid
      exact Bool.noConfusion hid.2
    have hother : ∀ j, Allocated space j → j ≠ id := fun j hj he => hfree (he ▸ hj)
    have hbits : ∀ j, (bitmap_set space.callbackBitmap id).bit j = (decide (j = id) || space.callbackBitmap.bit j) := by
      intro j
      rw [bit_set]
      simp [show id < space.callbackBitmap.length by omega]
    by_cases hgrow : id ≥ space.callbacksLength
    · rw [if_pos hgrow]
      rcases env.malloc space.mem (callbackSize * (id + 1)) with ⟨_ | _, mem⟩
      · exact ⟨_, _, rfl, rfl, .inl ⟨rfl, .of_eq rfl rfl rfl rfl⟩⟩
      · refine ⟨_, _, rfl, rfl, .inr ?_⟩
        refine ⟨hid.1, hfree, length_set _ _, firstZeroIdx_set _ _, hbits, update_self _ _ _, fun j hj => ?_,
          by simp only; omega, Nat.lt_succ_self id, rfl⟩
        have := hw.array j hj
        simp only [update_of_ne (hother j hj)]
        rw [if_neg (by omega)]
    · rw [if_neg hgrow]
      refine ⟨_, _, rfl, rfl, .inr ?_⟩
      exact ⟨hid.1, hfree, length_set _ _, firstZeroIdx_set _ _, hbits, update_self _ _ _,
        fun j hj => update_of_ne (hother j hj) _ _, Nat.le_refl _, by simp only; omega, rfl⟩

section
variable (h : NewCallback space space' id n func)
include h

theorem NewCallback.freed
    (hw : WellFormed space) : SameCallbacks space (space_free_callback space' id) where
  length := (length_clear _ _).trans h.length
  first h0 := firstZeroIdx_clear (h.first.trans h0) id
  bits j hj := by
    show (bitmap_clear space'.callbackBitmap id).bit j = _
    have hlt : id < space'.callbackBitmap.length := by
      rw [h.length, hw.length]
      exact h.lt
    rw [bit_clear, h.bits]
    by_cases he : j = id
    · have hfree : space.callbackBitmap.bit id = false := by
        cases hb : space.callbackBitmap.bit id with
        | false => rfl
        | true => exact absurd ⟨h.lt, hb⟩ h.wasFree
      simp [he, hlt, hfree]
    · simp [he]
  callbacks := h.callbacks
  callbacksLength := h.callbacksLength
  ran := h.ran

theorem NewCallback.counted (hn : 0 < n)
    (ht : ∀ j < PML_MAX_CALLBACK, tagged space'.pageTable j = tagged space.pageTable j + if j = id then n else 0)
    (hc : Counted space) : Counted space' := by
  have hold : ∀ j, Allocated space j → tagged space'.pageTable j = tagged space.pageTable j := fun j hj => by
    have hne : j ≠ id := fun he => h.wasFree (he ▸ hj)
    rw [ht j hj.1, if_neg hne, Nat.add_zero]
  have hnew : tagged space'.pageTable id = n := by
    rw [ht id h.lt, if_pos rfl, hc.free id h.lt h.wasFree, Nat.zero_add]
  refine { length := h.length.trans hc.length, first := h.first.trans hc.first, array := fun j hj => ?_,
           func := fun j hj => ?_, amount := fun j hj => ?_, positive := fun j hj => ?_, free := fun j hj hn => ?_ }
  · rcases (h.allocated_iff j).1 hj with rfl | hj
    · exact h.array
    · exact (hc.array j hj).trans_le h.callbacksLength
  · rcases (h.allocated_iff j).1 hj with rfl | hj
    · rw [h.callback]
      rfl
    · rw [h.callbacks j hj]
      exact hc.func j hj
  · rcases (h.allocated_iff j).1 hj with rfl | hj
    · rw [h.callback, hnew]
    · rw [h.callbacks j hj, hold j hj, hc.amount j hj]
  · rcases (h.allocated_iff j).1 hj with rfl | hj
    · rwa [hnew]
    · rw [hold j hj]
      exact hc.positive j hj
  · rw [h.allocated_iff, not_or] at hn
    rw [ht j hj, if_neg hn.1, hc.free j hj hn.2]

/-! ## Mapping -/

theorem NewCallback.table
    (t : pml_t) (mem : σ) : NewCallback space { space' with pageTable := t, mem := mem } id n func :=
  ⟨h.lt, h.wasFree, h.length, h.first, h.bits, h.callback, h.callbacks, h.callbacksLength, h.array, h.ran⟩

theorem NewCallback.trans (h' : Started space' space'') : NewCallback space space'' id n func where
  lt := h.lt
  wasFree := h.wasFree
  length := by rw [h'.bitmap, h.length]
  first := by rw [h'.bitmap, h.first]
  bits j := by rw [h'.bitmap, h.bits]
  callback := by rw [h'.callbacks, h.callback]
  callbacks j hj := by rw [h'.callbacks, h.callbacks j hj]
  callbacksLength := by rw [h'.callbacksLength]; exact h.callbacksLength
  array := by rw [h'.callbacksLength]; exact h.array
  ran := h'.ran.trans h.ran

end

theorem untagged_of_unmapped {t : pml_t} {mem : σ} {addr amount : Nat}
    (h : page_table_is_unmapped env t mem addr amount = true) : Untagged t (vpns addr amount) := by
  intro v hv hp
  rw [(is_unmapped_iff env t mem addr amount).1 h v hv] at hp
  cases hp

/-- The pages that were in the way are unmapped; none of them has a callback. -/
theorem overwrite_spec (space : space_t σ τ) (h : Untagged space.pageTable (vpns virtAddr pageAmount)) : ∃ t mem,
      (if !page_table_is_unmapped env space.pageTable space.mem virtAddr pageAmount then
        vmm_page_table_unmap_with_shootdown env space virtAddr pageAmount
      else space) = { space with pageTable := t, mem := mem } ∧ SameTags space.pageTable t := by
  split
  · exact ⟨_, _, rfl, sameTags_unmap env space.mem h⟩
  · exact ⟨space.pageTable, space.mem, rfl, .refl _⟩

/-- What `mapRegion` does where its region belongs to no callback: it adds the
callback with the pages of the region, or it touches nothing. -/
inductive Mapped (space space' : space_t σ τ) (r : Except errno_t Nat) (func : Option τ) (callbackPages pages : Nat) :
    Prop
  | untouched : Untouched space space' → (∀ addr, r = .ok addr → func = none) →
      Mapped space space' r func callbackPages pages
  | added (id : Nat) (f : τ) (addr : Nat) : func = some f → r = .ok addr →
      NewCallback space space' id callbackPages f →
      (∀ j < PML_MAX_CALLBACK, tagged space'.pageTable j = tagged space.pageTable j + if j = id then pages else 0) →
      Mapped space space' r func callbackPages pages

section MapWith
variable {mapping : space_mapping_t} {mapPages : pml_t → σ → Nat → Bool × pml_t × σ}
  (hm : Maps mapPages (vpns mapping.virtAddr mapping.pageAmount)) {space : space_t σ τ}
include hm

/-- On success the region has the callback ID; on failure it is unmapped and the
callback ID is free again. -/
theorem mapWith_spec (hu : Untagged space.pageTable (vpns mapping.virtAddr mapping.pageAmount)) {callbackId : Nat}
    (hid : callbackId < 256) :
    (∃ t mem space', mapWith env space mapping callbackId mapPages = (.ok mapping.virtAddr, space') ∧
        Started { space with pageTable := t, mem := mem } space' ∧
        (callbackId = PML_CALLBACK_NONE → SameTags space.pageTable t) ∧
        ∀ j < PML_MAX_CALLBACK,
          tagged t j = tagged space.pageTable j + if j = callbackId then mapping.pageAmount else 0) ∨
      ∃ t mem, mapWith env space mapping callbackId mapPages = (.error .ENOMEM,
          if callbackId ≠ PML_CALLBACK_NONE then
            space_free_callback { space with pageTable := t, mem := mem } callbackId
          else { space with pageTable := t, mem := mem }) ∧ SameTags space.pageTable t := by
  have hlt : ∀ v ∈ vpns mapping.virtAddr mapping.pageAmount, v < 2 ^ 36 := fun v => lt_of_mem_vpns
  obtain ⟨t, mem, heq, htags⟩ := overwrite_spec env space hu
  unfold mapWith
  rw [heq]
  have hu' := htags.untagged hlt hu (List.Subset.refl _)
  simp only
  rcases hmap : mapPages t mem callbackId with ⟨_ | _, t', mem'⟩
  · refine .inr ?_
    have hundo := htags.trans (hm.sameTags_undone env hid hu' hmap)
    refine ⟨_, (page_table_clear env (page_table_unmap env t' mem' mapping.virtAddr mapping.pageAmount) mem'
      mapping.virtAddr mapping.pageAmount).2, ?_, hundo⟩
    by_cases hnone : callbackId ≠ PML_CALLBACK_NONE
    · simp only [if_pos hnone]
      rfl
    · simp only [if_neg hnone]
      rfl
  · refine .inl ⟨t', mem', _, rfl, started_mapping_end _ mapping none, ?_, fun j hj => ?_⟩
    · rintro rfl
      exact htags.trans (hm.sameTags_none hmap)
    · have hok : (mapPages t mem callbackId).1 = true := by rw [hmap]
      have hcount := hm.tagged_eq hlt hid hok j
      rw [hmap, length_vpns, htags.tagged_eq hj] at hcount
      exact hcount

theorem mapRegion_spec (hw : WellFormed space) (callbackPages : Nat) (func : Option τ)
    (hu : Untagged space.pageTable (vpns mapping.virtAddr mapping.pageAmount)) :
    Mapped space (mapRegion env space mapping callbackPages func mapPages).2
      (mapRegion env space mapping callbackPages func mapPages).1 func callbackPages mapping.pageAmount := by
  unfold mapRegion
  split
  · exact .untouched (.refl space) nofun
  cases func with
  | none =>
    have hnone : PML_CALLBACK_NONE < 256 := by decide
    simp only [chooseCallback, isSome_none, Bool.false_eq_true, false_and, if_false]
    rcases mapWith_spec env hm hu hnone with ⟨t, mem, space1, heq, hs, htags, -⟩ | ⟨t, mem, heq, htags⟩
    · rw [heq]
      exact .untouched ((untouched_table space mem (htags rfl)).trans hs.untouched) fun _ _ => rfl
    · rw [heq, if_neg (not_not.2 rfl)]
      exact .untouched (untouched_table space mem htags) fun _ _ => rfl
  | some f =>
    obtain ⟨id, space1, heq, htable, hcase⟩ := alloc_callback_spec env hw callbackPages f
    simp only [chooseCallback, heq, isSome_some, true_and]
    have hsame : SameTags space.pageTable space1.pageTable := htable ▸ .refl _
    rcases hcase with ⟨hid, hcallbacks⟩ | hnew
    · rw [if_pos hid]
      exact .untouched ⟨hcallbacks, hsame⟩ nofun
    · rw [if_neg (Nat.ne_of_lt hnew.lt)]
      have hid : id < 256 := Nat.lt_succ_of_lt hnew.lt
      rcases mapWith_spec env hm (htable ▸ hu) hid with ⟨t, mem, space2, heq, hs, -, ht⟩ | ⟨t, mem, heq, htags⟩
      · rw [heq]
        refine .added id f mapping.virtAddr rfl rfl ((hnew.table t mem).trans hs) fun j hj => ?_
        rw [hs.pageTable, ← htable]
        exact ht j hj
      · rw [heq, if_pos (Nat.ne_of_lt hnew.lt : id ≠ PML_CALLBACK_NONE)]
        exact .untouched ⟨(hnew.table t mem).freed hw, hsame.trans htags⟩ nofun

end MapWith

end Patchwork.Space
