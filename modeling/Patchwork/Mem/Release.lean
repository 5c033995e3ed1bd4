import Patchwork.Mem.Callbacks
/-!
# How callbacks end

`vmm_unmap` takes the pages of a region from their callbacks and calls those with
no page left; `space_deinit` calls the rest. `vmm_alloc` and `vmm_protect` leave
the callbacks as they are.
-/

namespace Patchwork.Space

open List Paging bitmap_t

variable {σ τ : Type} (env : Env σ)

/-! ## Unmapping -/

/-- The callback loses `n id` pages. -/
def lose (n : Nat → Nat) (callback : space_callback_t τ) (id : Nat) : space_callback_t τ :=
  { callback with pageAmount := callback.pageAmount - n id }

/-- The callbacks of the list have lost their pages, and those that lost the last
one were called in order. -/
structure Released (n : Nat → Nat) (l : List Nat) (space space' : space_t σ τ) : Prop where
  pageTable : space'.pageTable = space.pageTable
  length : space'.callbackBitmap.length = space.callbackBitmap.length
  first : space.callbackBitmap.firstZeroIdx = 0 → space'.callbackBitmap.firstZeroIdx = 0
  bits : ∀ j < PML_MAX_CALLBACK, space'.callbackBitmap.bit j =
    (space.callbackBitmap.bit j && !decide (j ∈ l ∧ (space.callbacks j).pageAmount = n j))
  callbacks : ∀ j, space'.callbacks j = if j ∈ l then lose n (space.callbacks j) j else space.callbacks j
  callbacksLength : space'.callbacksLength = space.callbacksLength
  ran : space'.ran =
    space.ran ++ (l.filter fun j => (space.callbacks j).pageAmount = n j).filterMap fun j => (space.callbacks j).func

/-- No callback of the list loses more pages than it has. -/
def Covered (n : Nat → Nat) (l : List Nat) (space : space_t σ τ) : Prop :=
  ∀ j ∈ l, n j ≤ (space.callbacks j).pageAmount ∧ (space.callbacks j).pageAmount < 2 ^ 64

variable {n : Nat → Nat} {space : space_t σ τ}

theorem released_one {i : Nat} (hi : i < PML_MAX_CALLBACK)
    (hw : space.callbackBitmap.length = PML_MAX_CALLBACK) (hc : Covered n [i] space) :
    Released n [i] space (vmm_unmap_callback n space i) := by
  obtain ⟨hle, h64⟩ := hc i mem_cons_self
  have hsub : ((space.callbacks i).pageAmount + 2 ^ 64 - n i) % 2 ^ 64 = (space.callbacks i).pageAmount - n i := by
    omega
  have hcallbacks : ∀ j, Function.update space.callbacks i
      { space.callbacks i with pageAmount := (space.callbacks i).pageAmount - n i } j =
        if j ∈ [i] then lose n (space.callbacks j) j else space.callbacks j := by
    intro j
    rw [Function.update_apply]
    by_cases hj : j = i
    · rw [if_pos hj, if_pos (mem_singleton.2 hj), hj, lose]
    · rw [if_neg hj, if_neg (mt mem_singleton.1 hj)]
  unfold vmm_unmap_callback
  simp only [space_t.assert, hsub]
  split
  · rename_i hzero
    have heq : (space.callbacks i).pageAmount = n i := by omega
    refine ⟨rfl, length_clear _ _, fun h0 => firstZeroIdx_clear h0 i, fun j hj => ?_, hcallbacks, rfl, ?_⟩
    · show (bitmap_clear space.callbackBitmap i).bit j = _
      rw [bit_clear, Bool.and_comm]
      by_cases hji : j = i
      · simp [hji, hw, hi, heq]
      · simp [hji]
    · simp only [space_free_callback, callCallback, Function.update_self, filter_cons, heq, decide_true, if_true,
        filter_nil, filterMap_cons, filterMap_nil]
      cases (space.callbacks i).func <;> rfl
  · rename_i hpos
    have hne : (space.callbacks i).pageAmount ≠ n i := by omega
    refine ⟨rfl, rfl, id, fun j _ => ?_, hcallbacks, rfl, ?_⟩
    · have : ¬(j ∈ [i] ∧ (space.callbacks j).pageAmount = n j) := by
        rintro ⟨hj, he⟩
        rw [mem_singleton.1 hj] at he
        exact hne he
      simp only [this, decide_false, Bool.not_false, Bool.and_true]
    · simp [hne]

theorem released_loop {l : List Nat} (hnd : l.Nodup) (hl : ∀ j ∈ l, j < PML_MAX_CALLBACK) :
    ∀ {space : space_t σ τ}, space.callbackBitmap.length = PML_MAX_CALLBACK → Covered n l space →
      Released n l space (l.foldl (vmm_unmap_callback n) space) := by
  induction l with
  | nil =>
    intro space _ _
    exact ⟨rfl, rfl, id, by simp, by simp, rfl, by simp⟩
  | cons i l ih =>
    intro space hw hc
    obtain ⟨hnew, hnd⟩ := nodup_cons.1 hnd
    have hone : Released n [i] space (vmm_unmap_callback n space i) := by
      refine released_one (hl i mem_cons_self) hw fun j hj => hc j ?_
      rw [mem_singleton.1 hj]
      exact mem_cons_self
    rw [foldl_cons]
    generalize vmm_unmap_callback n space i = space1 at hone ⊢
    -- The callbacks of the rest of the list are as they were.
    have hkeep : ∀ j, j ≠ i → space1.callbacks j = space.callbacks j := by
      intro j hj
      rw [hone.callbacks, if_neg (mt mem_singleton.1 hj)]
    have hne : ∀ j ∈ l, j ≠ i := fun j hj he => hnew (he ▸ hj)
    have hrest := ih hnd (fun j hj => hl j (mem_cons_of_mem _ hj)) (hone.length.trans hw) fun j hj => by
      rw [hkeep j (hne j hj)]
      exact hc j (mem_cons_of_mem _ hj)
    refine ⟨hrest.pageTable.trans hone.pageTable, hrest.length.trans hone.length, fun h0 => hrest.first (hone.first h0),
      fun j hj => ?_, fun j => ?_, hrest.callbacksLength.trans hone.callbacksLength, ?_⟩
    · rw [hrest.bits j hj, hone.bits j hj]
      by_cases hji : j = i
      · subst hji
        simp [hnew]
      · simp [hji, hkeep j hji]
    · rw [hrest.callbacks j]
      by_cases hji : j = i
      · subst hji
        rw [if_neg hnew, if_pos mem_cons_self, hone.callbacks, if_pos mem_cons_self]
      · rw [hkeep j hji]
        simp [hji]
    · rw [hrest.ran, hone.ran, append_assoc]
      congr 1
      have hfilter : (l.filter fun j => (space1.callbacks j).pageAmount = n j) =
          l.filter fun j => (space.callbacks j).pageAmount = n j :=
        filter_congr fun j hj => by rw [hkeep j (hne j hj)]
      have hmap : (l.filter fun j => (space.callbacks j).pageAmount = n j).filterMap (fun j => (space1.callbacks j).func) =
          (l.filter fun j => (space.callbacks j).pageAmount = n j).filterMap fun j => (space.callbacks j).func :=
        filterMap_congr fun j hj => by rw [hkeep j (hne j (mem_filter.1 hj).1)]
      rw [hfilter, hmap, ← filterMap_append, ← filter_append, singleton_append]

theorem bitmap_unmap_callback (n : Nat → Nat) (space : space_t σ τ) (i : Nat) :
    (vmm_unmap_callback n space i).callbackBitmap = space.callbackBitmap ∨
      (vmm_unmap_callback n space i).callbackBitmap = bitmap_clear space.callbackBitmap i := by
  simp only [vmm_unmap_callback, space_t.assert, space_free_callback, callCallback]
  generalize ((space.callbacks i).pageAmount + 2 ^ 64 - n i) % 2 ^ 64 = left
  split
  · exact .inr rfl
  · exact .inl rfl

theorem keepsWords_unmap (n : Nat → Nat) :
    KeepsWords space_t.callbackBitmap (vmm_unmap_callback n : space_t σ τ → Nat → space_t σ τ) where
  length space i := by
    rcases bitmap_unmap_callback n space i with h | h
    · rw [h]
    · rw [h, length_clear]
  buffer space i q hq := by
    rcases bitmap_unmap_callback n space i with h | h
    · rw [h]
    · rw [h, buffer_clear_of_ne _ hq]

/-- The callbacks of the space in the order of their IDs. -/
def allocatedIds (space : space_t σ τ) : List Nat := (List.range PML_MAX_CALLBACK).filter space.callbackBitmap.bit

theorem mem_allocatedIds {id : Nat} : id ∈ allocatedIds space ↔ Allocated space id := by
  rw [allocatedIds, mem_filter, mem_range, Allocated]

theorem allocatedIds_nodup (space : space_t σ τ) : (allocatedIds space).Nodup := nodup_range.filter _

/-- What `vmm_unmap` does to the callbacks: those in the region lose their pages
in the page table and in the array. -/
structure Unmapped (space space' : space_t σ τ) : Prop where
  wellFormed : WellFormed space'
  allocated : ∀ j, Allocated space' j ↔ Allocated space j ∧ tagged space'.pageTable j ≠ 0
  amount : ∀ j, Allocated space' j → (space'.callbacks j).pageAmount = tagged space'.pageTable j
  func : ∀ j, (space'.callbacks j).func = (space.callbacks j).func
  free : ∀ j < PML_MAX_CALLBACK, ¬Allocated space j → tagged space'.pageTable j = 0
  ran : space'.ran =
    space.ran ++ ((allocatedIds space).filter fun j => tagged space'.pageTable j = 0).filterMap fun j =>
      (space.callbacks j).func

theorem tagged_le (t : pml_t) (id : Nat) : tagged t id ≤ 2 ^ 36 := by
  refine (Finset.card_filter_le _ _).trans ?_
  rw [Finset.card_range]

/-- The pages that went from the page table are those the callbacks lost. -/
theorem Released.unmapped {space' : space_t σ τ} {t : pml_t} {mem : σ} (hc : Counted space)
    (hcount : ∀ j < PML_MAX_CALLBACK, tagged t j + n j = tagged space.pageTable j)
    (h : Released n (allocatedIds space) { space with pageTable := t, mem := mem } space') : Unmapped space space' := by
  obtain ⟨htable, hlength, hfirst, hbits, hcallbacks, hlen, hran⟩ := h
  -- A callback has lost its last page exactly if the page table has none left.
  have hzero : ∀ j, Allocated space j → ((space.callbacks j).pageAmount = n j ↔ tagged t j = 0) := by
    intro j hj
    have h1 := hcount j hj.1
    rw [hc.amount j hj]
    omega
  have halloc : ∀ j, Allocated space' j ↔ Allocated space j ∧ tagged t j ≠ 0 := by
    intro j
    constructor
    · rintro ⟨hj, hb⟩
      rw [hbits j hj, Bool.and_eq_true, Bool.not_eq_true', decide_eq_false_iff_not] at hb
      have ha : Allocated space j := ⟨hj, hb.1⟩
      exact ⟨ha, fun h0 => hb.2 ⟨mem_allocatedIds.2 ha, (hzero j ha).2 h0⟩⟩
    · rintro ⟨ha, hne⟩
      refine ⟨ha.1, ?_⟩
      rw [hbits j ha.1, Bool.and_eq_true, Bool.not_eq_true', decide_eq_false_iff_not]
      exact ⟨ha.2, fun h => hne ((hzero j ha).1 h.2)⟩
  have hfunc : ∀ j, (space'.callbacks j).func = (space.callbacks j).func := by
    intro j
    rw [hcallbacks]
    split <;> rfl
  refine ⟨⟨hlength.trans hc.length, hfirst hc.first, fun j hj => ?_, fun j hj => ?_⟩, ?_, fun j hj => ?_, hfunc,
    fun j hj hn => ?_, ?_⟩
  · rw [hlen]
    exact hc.array j ((halloc j).1 hj).1
  · rw [hfunc]
    exact hc.func j ((halloc j).1 hj).1
  · rw [htable]
    exact halloc
  · have ha := ((halloc j).1 hj).1
    have h1 := hcount j hj.1
    rw [hcallbacks, if_pos (mem_allocatedIds.2 ha), htable]
    show (space.callbacks j).pageAmount - n j = tagged t j
    rw [hc.amount j ha]
    omega
  · have h1 := hcount j hj
    rw [hc.free j hj hn] at h1
    rw [htable]
    exact Nat.eq_zero_of_add_eq_zero_right h1
  · have hfilter : ((allocatedIds space).filter fun j => (space.callbacks j).pageAmount = n j) =
        (allocatedIds space).filter fun j => tagged t j = 0 :=
      filter_congr fun j hj => decide_eq_decide.2 (hzero j (mem_allocatedIds.1 hj))
    rw [hran, htable, hfilter]

theorem unmapped_loop (hc : Counted space) (virtAddr : Nat) {pageAmount : Nat} (hle : pageAmount ≤ 2 ^ 36) :
    Unmapped space (BITMAP_FOR_EACH_SET space_t.callbackBitmap
      (vmm_unmap_callback (page_table_collect_callbacks env space.pageTable space.mem virtAddr pageAmount fun _ => 0))
      (vmm_page_table_unmap_with_shootdown env space virtAddr pageAmount)) := by
  have hcount : ∀ j < PML_MAX_CALLBACK,
      tagged (vmm_page_table_unmap_with_shootdown env space virtAddr pageAmount).pageTable j +
        page_table_collect_callbacks env space.pageTable space.mem virtAddr pageAmount (fun _ => 0) j =
          tagged space.pageTable j := by
    intro j hj
    rw [collect_callbacks_eq env space.pageTable space.mem virtAddr pageAmount (Nat.ne_of_lt hj)]
    exact tagged_unmap env space.pageTable space.mem hle j
  obtain ⟨t, mem, hmid⟩ : ∃ t mem, vmm_page_table_unmap_with_shootdown env space virtAddr pageAmount =
      { space with pageTable := t, mem := mem } := ⟨_, _, rfl⟩
  rw [hmid] at hcount ⊢
  generalize page_table_collect_callbacks env space.pageTable space.mem virtAddr pageAmount (fun _ => 0) = n at hcount ⊢
  have hcov : Covered n (allocatedIds space) { space with pageTable := t, mem := mem } := by
    intro j hj
    have hj := mem_allocatedIds.1 hj
    have h1 := hcount j hj.1
    have h2 := tagged_le space.pageTable j
    simp only [hc.amount j hj]
    omega
  have hrel : Released n (allocatedIds space) { space with pageTable := t, mem := mem }
      ((allocatedIds space).foldl (vmm_unmap_callback n) { space with pageTable := t, mem := mem }) :=
    released_loop (allocatedIds_nodup space) (fun j hj => (mem_allocatedIds.1 hj).1) hc.length hcov
  rw [(keepsWords_unmap n).for_each_set]
  simp only [hc.length]
  exact hrel.unmapped hc hcount

theorem Unmapped.counted {space' : space_t σ τ} (h : Unmapped space space') : Counted space' where
  toWellFormed := h.wellFormed
  amount := h.amount
  positive j hj := Nat.pos_of_ne_zero ((h.allocated j).1 hj).2
  free j hj hn := by
    by_contra hne
    by_cases ha : Allocated space j
    · exact hn ((h.allocated j).2 ⟨ha, hne⟩)
    · exact hne (h.free j hj ha)

/-! ## The other operations -/

/-- Also where a batch fails halfway, no page of a callback is touched. -/
theorem untouched_alloc_loop (mapping : space_mapping_t) (hf : Entry.present mapping.flags = true) (fuel : Nat) :
    ∀ {remainingPages : Nat} {space : space_t σ τ}, remainingPages ≤ mapping.pageAmount →
      Untagged space.pageTable (vpns mapping.virtAddr mapping.pageAmount) →
      Untouched space (vmm_alloc_loop env mapping fuel remainingPages space).2 := by
  have hlt : ∀ v ∈ vpns mapping.virtAddr mapping.pageAmount, v < 2 ^ 36 := fun v => lt_of_mem_vpns
  induction fuel with
  | zero => exact fun _ _ => .refl _
  | succ fuel ih =>
    intro remainingPages space hle hu
    have hdone : mapping.pageAmount - remainingPages ≤ mapping.pageAmount := Nat.sub_le _ _
    have hsub := vpns_subset_of_le mapping.virtAddr hdone
    rw [vmm_alloc_loop]
    split
    · exact .refl space
    · rename_i hpos
      simp only
      rcases env.allocPages space.mem (min remainingPages 64) with ⟨_ | pages, mem⟩
      · have hkeep := untouched_table space mem (.refl space.pageTable)
        exact hkeep.trans (untouched_unmap env _ fun v hv => hu v (hsub hv))
      · simp only
        have htags := sameTags_map_pages env space.pageTable mem
          ((mapping.virtAddr + (mapping.pageAmount - remainingPages) * PAGE_SIZE) % 2 ^ 64) pages (min remainingPages 64) hf
        rcases hmap : page_table_map_pages env space.pageTable mem
          ((mapping.virtAddr + (mapping.pageAmount - remainingPages) * PAGE_SIZE) % 2 ^ 64) pages (min remainingPages 64)
          mapping.flags PML_CALLBACK_NONE with ⟨_ | _, t, mem'⟩
        · rw [hmap] at htags
          exact (untouched_table space mem' htags).trans (untouched_unmap env _ (htags.untagged hlt hu hsub))
        · rw [hmap] at htags
          refine (untouched_table space mem' htags).trans (ih (by omega) ?_)
          exact htags.untagged hlt hu (List.Subset.refl _)

theorem present_owned {flags : pml_flags_t} (h : Entry.present flags = true) :
    Entry.present (flags ||| PML_OWNED) = true := by
  simp only [Entry.present, BitVec.getLsbD_or] at h ⊢
  rw [h, Bool.true_or]

theorem sameTags_set_flags (t : pml_t) (mem : σ) (addr amount : Nat) {flags : pml_flags_t}
    (hf : Entry.present flags = true) : SameTags t (page_table_set_flags env t mem addr amount flags).2 :=
  fun _ hv id _ => tagged_set_flags_loop env t mem traverse_create_invalid hf _ hv id

/-- The functions still to be called. -/
def pending (space : space_t σ τ) : List τ := (allocatedIds space).filterMap fun id => (space.callbacks id).func

theorem foldl_callCallback (l : List Nat) (space : space_t σ τ) :
    (l.foldl callCallback space).ran = space.ran ++ l.filterMap fun id => (space.callbacks id).func := by
  induction l generalizing space with
  | nil => simp
  | cons i l ih =>
    rw [foldl_cons, ih]
    simp only [callCallback, append_assoc, filterMap_cons]
    cases (space.callbacks i).func <;> rfl

theorem ran_deinit (hw : WellFormed space) : (space_deinit space).ran = space.ran ++ pending space := by
  have hkeep : KeepsWords space_t.callbackBitmap (callCallback : space_t σ τ → Nat → space_t σ τ) :=
    ⟨fun _ _ => rfl, fun _ _ _ _ => rfl⟩
  rw [space_deinit, hkeep.for_each_set, hw.length, foldl_callCallback]
  rfl

end Patchwork.Space
