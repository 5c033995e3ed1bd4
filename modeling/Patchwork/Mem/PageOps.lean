import Patchwork.Mem.FlatTable
/-!
# The operations of page tables, page by page

What each loop of `paging.h` over a range of pages does to the entries of the
pages, and what it tells about them.
-/

namespace Patchwork.Paging

open List Function Entry

/-- The page is present and has this callback ID. -/
def Tagged (e : pml_entry_t) (id : Nat) : Prop := present e = true ∧ callbackId e = id

instance (e : pml_entry_t) (id : Nat) : Decidable (Tagged e id) := by
  unfold Tagged
  infer_instance

/-- The numbers of the pages of a region. -/
def vpns (addr amount : Nat) : List Nat := (pageAddrs addr amount).map vpn

theorem not_tagged_of_absent {e : pml_entry_t} (h : present e = false) (id : Nat) : ¬Tagged e id :=
  fun ht => Bool.false_ne_true (h.symm.trans ht.1)

theorem not_tagged_zero (id : Nat) : ¬Tagged 0#64 id := not_tagged_of_absent rfl id

variable {σ : Type} (env : Env σ)

/-! ## Questions -/

variable {traverse : page_table_traverse_t} {id v : Nat} (pml4 : pml_t) (mem : σ)

theorem is_unmapped_loop_eq (h : traverse.Invalid) (l : List Nat) :
    page_table_is_unmapped_loop env pml4 mem traverse l = l.all fun a => !present (page pml4 (vpn a)) := by
  induction l generalizing traverse with
  | nil => rfl
  | cons addr l ih =>
    obtain ⟨ok, traverse', heq, hinv, hcase⟩ := traverse_none env h pml4 mem addr
    rw [page_table_is_unmapped_loop, heq, all_cons]
    rcases hcase with ⟨rfl, hl⟩ | ⟨rfl, -, hz⟩
    · simp only [entryAt_eq_page hl, ih hinv]
      split <;> simp [*]
    · simp only [ih hinv, hz, present_zero, Bool.not_false, Bool.true_and]

theorem is_unmapped_iff (addr amount : Nat) :
    page_table_is_unmapped env pml4 mem addr amount = true ↔
      ∀ v ∈ vpns addr amount, present (page pml4 v) = false := by
  rw [page_table_is_unmapped, is_unmapped_loop_eq env _ _ traverse_create_invalid, all_eq_true]
  simp [vpns]

theorem collect_callbacks_loop_eq (h : traverse.Invalid) (l : List Nat) (callbacks : Nat → Nat)
    (hid : id ≠ PML_CALLBACK_NONE) :
    page_table_collect_callbacks_loop env pml4 mem traverse l callbacks id =
      callbacks id + (l.map vpn).countP fun v => Tagged (page pml4 v) id := by
  induction l generalizing traverse callbacks with
  | nil => rfl
  | cons addr l ih =>
    obtain ⟨ok, traverse', heq, hinv, hcase⟩ := traverse_none env h pml4 mem addr
    rw [page_table_collect_callbacks_loop, heq, map_cons, countP_cons]
    rcases hcase with ⟨rfl, hl⟩ | ⟨rfl, -, hz⟩
    · simp only [entryAt_eq_page hl]
      split
      · rename_i habs
        have hno := not_tagged_of_absent (by simpa using habs) id
        rw [ih hinv, if_neg (by simpa using hno), Nat.add_zero]
      · rename_i hpres
        split
        · rw [ih hinv]
          by_cases heq' : callbackId (page pml4 (vpn addr)) = id
          · subst heq'
            have ht : Tagged (page pml4 (vpn addr)) (callbackId (page pml4 (vpn addr))) := ⟨by simpa using hpres, rfl⟩
            rw [update_self, if_pos (by simpa using ht)]
            omega
          · have hno : ¬Tagged (page pml4 (vpn addr)) id := fun ht => heq' ht.2
            rw [update_of_ne (Ne.symm heq'), if_neg (by simpa using hno), Nat.add_zero]
        · rename_i hnone
          have hno : ¬Tagged (page pml4 (vpn addr)) id := fun ht => hid (by rw [← ht.2]; simpa using hnone)
          rw [ih hinv, if_neg (by simpa using hno), Nat.add_zero]
    · simp only [hz]
      rw [ih hinv, if_neg (by simpa using not_tagged_zero id), Nat.add_zero]

theorem collect_callbacks_eq (addr amount : Nat) (hid : id ≠ PML_CALLBACK_NONE) :
    page_table_collect_callbacks env pml4 mem addr amount (fun _ => 0) id =
      (vpns addr amount).countP fun v => Tagged (page pml4 v) id := by
  rw [vpns, page_table_collect_callbacks, collect_callbacks_loop_eq env pml4 mem traverse_create_invalid _ _ hid,
    Nat.zero_add]

/-! ## Mapping -/

/-- Pages outside the range stay; on success the pages of the range were absent
and distinct, and have the callback ID. -/
theorem mapLoop_spec {flags : pml_flags_t} (hf : present flags = true) (hid : id < 256)
    (h : traverse.Invalid) (l : List (Nat × Nat)) :
    (∀ v < 2 ^ 36, v ∉ l.map (fun x => vpn x.1) → page (mapLoop env flags id pml4 mem traverse l).2.1 v = page pml4 v) ∧
      ((mapLoop env flags id pml4 mem traverse l).1 = true →
        (l.map fun x => vpn x.1).Nodup ∧
          ∀ v ∈ l.map (fun x => vpn x.1), present (page pml4 v) = false ∧
            Tagged (page (mapLoop env flags id pml4 mem traverse l).2.1 v) id) := by
  induction l generalizing traverse pml4 mem with
  | nil => exact ⟨fun _ _ _ => rfl, fun _ => ⟨nodup_nil, nofun⟩⟩
  | cons x l ih =>
    obtain ⟨addr, pfn⟩ := x
    obtain ⟨ok, pml4', mem', traverse', heq, hinv, hpage, hlink⟩ := traverse_spec env h pml4 mem addr flags
    rw [mapLoop, heq]
    cases ok with
    | false => exact ⟨fun v _ _ => congrFun hpage v, nofun⟩
    | true =>
      have hl := hlink rfl
      simp only [entryAt_eq_page hl, hpage]
      split
      · exact ⟨fun v _ _ => congrFun hpage v, nofun⟩
      · rename_i habs
        have habs' : present (page pml4 (vpn addr)) = false := by simpa using habs
        have htag : Tagged (setCallbackId (setPfn flags pfn) id) id :=
          ⟨by simpa using hf, callbackId_setCallbackId _ hid⟩
        have hset : ∀ v < 2 ^ 36, page (setEntryAt addr (setCallbackId (setPfn flags pfn) id) 3 pml4') v =
            if v = vpn addr then setCallbackId (setPfn flags pfn) id else page pml4 v := by
          intro v hv
          rw [page_setEntryAt hl _ hv, hpage]
        obtain ⟨hout, hin⟩ := ih (setEntryAt addr (setCallbackId (setPfn flags pfn) id) 3 pml4') mem' hinv
        refine ⟨fun v hv hnot => ?_, fun hok => ?_⟩
        · rw [map_cons, mem_cons, not_or] at hnot
          rw [hout v hv hnot.2, hset v hv, if_neg hnot.1]
        · obtain ⟨hnd, hall⟩ := hin hok
          -- The page just written is present, so the rest of the range does not come back to it.
          have hnew : vpn addr ∉ l.map fun x => vpn x.1 := fun hm => by
            have := (hall _ hm).1
            rw [hset _ (vpn_lt addr), if_pos rfl, htag.1] at this
            cases this
          refine ⟨nodup_cons.2 ⟨hnew, hnd⟩, fun v hv => ?_⟩
          rcases mem_cons.1 hv with rfl | hv
          · refine ⟨habs', ?_⟩
            rw [hout _ (vpn_lt addr) hnew, hset _ (vpn_lt addr), if_pos rfl]
            exact htag
          · have hne : v ≠ vpn addr := fun he => hnew (he ▸ hv)
            have hlt : v < 2 ^ 36 := by
              obtain ⟨y, -, rfl⟩ := mem_map.1 hv
              exact vpn_lt _
            refine ⟨?_, (hall v hv).2⟩
            have := (hall v hv).1
            rwa [hset v hlt, if_neg hne] at this

/-- Also where it fails, each page is as it was, or was absent and is now mapped. -/
theorem mapLoop_cases (flags : pml_flags_t) (id : Nat) (h : traverse.Invalid) (l : List (Nat × Nat)) (hv : v < 2 ^ 36) :
    page (mapLoop env flags id pml4 mem traverse l).2.1 v = page pml4 v ∨
      present (page pml4 v) = false ∧
        ∃ pfn, page (mapLoop env flags id pml4 mem traverse l).2.1 v =
          setCallbackId (setPfn flags pfn) id := by
  induction l generalizing traverse pml4 mem with
  | nil => exact .inl rfl
  | cons x l ih =>
    obtain ⟨addr, pfn⟩ := x
    obtain ⟨ok, pml4', mem', traverse', heq, hinv, hpage, hlink⟩ := traverse_spec env h pml4 mem addr flags
    rw [mapLoop, heq]
    cases ok with
    | false => exact .inl (congrFun hpage v)
    | true =>
      have hl := hlink rfl
      simp only [entryAt_eq_page hl, hpage]
      split
      · exact .inl (congrFun hpage v)
      · rename_i habs
        have hset := page_setEntryAt hl (setCallbackId (setPfn flags pfn) id) hv
        rw [hpage] at hset
        have hrest := ih (setEntryAt addr (setCallbackId (setPfn flags pfn) id) 3 pml4') mem' hinv
        by_cases hva : v = vpn addr
        · -- The entry was just written; what follows leaves it, or writes it once more.
          rw [if_pos hva] at hset
          refine .inr ⟨by rw [hva]; simpa using habs, ?_⟩
          rcases hrest with hk | hk
          · exact ⟨pfn, hk.trans hset⟩
          · exact hk.2
        · rw [if_neg hva] at hset
          rcases hrest with hk | hk
          · exact .inl (hk.trans hset)
          · exact .inr ⟨hset ▸ hk.1, hk.2⟩

/-! ## Unmapping and clearing -/

theorem page_unmap_loop (h : traverse.Invalid) (l : List Nat) (hv : v < 2 ^ 36) :
    page (page_table_unmap_loop env mem pml4 traverse l) v =
      if v ∈ l.map vpn ∧ present (page pml4 v) = true then clearPresent (page pml4 v) else page pml4 v := by
  induction l generalizing traverse pml4 with
  | nil => simp [page_table_unmap_loop]
  | cons addr l ih =>
    obtain ⟨ok, traverse', heq, hinv, hcase⟩ := traverse_none env h pml4 mem addr
    rw [page_table_unmap_loop, heq]
    have hskip : present (page pml4 (vpn addr)) = false →
        page (page_table_unmap_loop env mem pml4 traverse' l) v =
          if v ∈ (addr :: l).map vpn ∧ present (page pml4 v) = true then clearPresent (page pml4 v)
          else page pml4 v := by
      intro habs
      rw [ih _ hinv]
      by_cases hva : v = vpn addr
      · rw [hva, habs]
        simp
      · simp [hva]
    rcases hcase with ⟨rfl, hl⟩ | ⟨rfl, -, hz⟩
    · simp only [entryAt_eq_page hl]
      split
      · rename_i habs
        exact hskip (by simpa using habs)
      · rename_i hpres
        rw [ih _ hinv, page_setEntryAt hl _ hv]
        by_cases hva : v = vpn addr
        · subst hva
          have hpres' : present (page pml4 (vpn addr)) = true := by simpa using hpres
          simp [hpres']
        · simp [hva]
    · exact hskip (by rw [hz]; rfl)

/-- The cache is never valid, so no table is freed. -/
theorem clear_pml1_pml2_pml3_eq {prev : page_table_traverse_t} (h : prev.Invalid)
    (traverse : page_table_traverse_t) (buffer : List Nat) :
    page_table_clear_pml1_pml2_pml3 env pml4 mem prev traverse buffer = (pml4, mem, buffer) := by
  simp only [page_table_clear_pml1_pml2_pml3, h.2.2, Bool.false_and, Bool.false_eq_true, if_false]

theorem page_clear_loop {prev : page_table_traverse_t} (hp : prev.Invalid) (h : traverse.Invalid)
    (buffer l : List Nat) (hv : v < 2 ^ 36) :
    page (page_table_clear_loop env pml4 mem prev traverse buffer l).1 v =
      if v ∈ l.map vpn ∧ present (page pml4 v) = false then 0#64 else page pml4 v := by
  induction l generalizing prev traverse pml4 mem buffer with
  | nil => simp [page_table_clear_loop, clear_pml1_pml2_pml3_eq env _ _ hp]
  | cons addr l ih =>
    obtain ⟨ok, traverse', heq, hinv, hcase⟩ := traverse_none env h pml4 mem addr
    simp only [page_table_clear_loop, clear_pml1_pml2_pml3_eq env _ _ hp, heq]
    rcases hcase with ⟨rfl, hl⟩ | ⟨rfl, -, hz⟩
    · simp only [entryAt_eq_page hl]
      split
      · rename_i hpres
        rw [ih _ _ hinv hinv]
        by_cases hva : v = vpn addr
        · rw [hva, hpres]
          simp
        · simp [hva]
      · rename_i habs
        rw [ih _ _ hinv hinv, page_setEntryAt hl _ hv]
        by_cases hva : v = vpn addr
        · subst hva
          have habs' : present (page pml4 (vpn addr)) = false := by simpa using habs
          simp [habs']
        · simp [hva]
    · simp only
      rw [ih _ _ ⟨rfl, rfl, rfl⟩ hinv]
      by_cases hva : v = vpn addr
      · rw [hva, hz]
        simp
      · simp [hva]

theorem page_clear_unmap (addr amount : Nat) (hv : v < 2 ^ 36) :
    page (page_table_clear env (page_table_unmap env pml4 mem addr amount) mem addr amount).1 v =
      if v ∈ vpns addr amount then 0#64 else page pml4 v := by
  rw [vpns, page_table_clear, page_clear_loop env _ _ traverse_create_invalid traverse_create_invalid _ _ hv,
    page_table_unmap, page_unmap_loop env _ _ traverse_create_invalid _ hv]
  by_cases hm : v ∈ (pageAddrs addr amount).map vpn
  · cases hpres : present (page pml4 v) with
    | true => simp only [hm, and_self, if_true, present_clearPresent]
    | false => simp only [hm, hpres, Bool.false_eq_true, and_false, if_false, and_self, if_true]
  · simp only [hm, false_and, if_false]

/-! ## Flags -/

theorem tagged_set_flags_loop (h : traverse.Invalid) {flags : pml_flags_t}
    (hf : present flags = true) (l : List Nat) (hv : v < 2 ^ 36) (id : Nat) :
    Tagged (page (page_table_set_flags_loop env mem pml4 traverse flags l).2 v) id ↔ Tagged (page pml4 v) id := by
  induction l generalizing traverse flags pml4 with
  | nil => rfl
  | cons addr l ih =>
    obtain ⟨ok, traverse', heq, hinv, hcase⟩ := traverse_none env h pml4 mem addr
    rw [page_table_set_flags_loop, heq]
    rcases hcase with ⟨rfl, hl⟩ | ⟨rfl, -, hz⟩
    · simp only [entryAt_eq_page hl]
      split
      · rfl
      · rename_i hpres
        have hpres' : present (page pml4 (vpn addr)) = true := by simpa using hpres
        have hf' : present (if owned (page pml4 (vpn addr)) then flags ||| PML_OWNED else flags) = true := by
          split
          · simp only [present, BitVec.getLsbD_or] at hf ⊢
            rw [hf, Bool.true_or]
          · exact hf
        rw [ih _ hinv hf', page_setEntryAt hl _ hv]
        by_cases hva : v = vpn addr
        · subst hva
          rw [if_pos rfl]
          unfold Tagged
          rw [present_flags, callbackId_flags, hf', hpres']
        · rw [if_neg hva]
    · exact ih pml4 hinv hf

end Patchwork.Paging
