import Patchwork.Mem.PageOps
/-!
# Callback IDs in a page table

How many pages have a callback ID, and how the operations on page tables change
that number. `PML_CALLBACK_NONE` on a page stands for no callback, so only the
IDs below `PML_MAX_CALLBACK` count.
-/

namespace Patchwork.Paging

open List

variable {σ : Type} (env : Env σ)

variable {addr amount id : Nat} {t t' : pml_t} {l : List Nat} {flags : pml_flags_t}
    {mapPages : pml_t → σ → Nat → Bool × pml_t × σ} {mem : σ}

theorem lt_of_mem_vpns {v : Nat} (h : v ∈ vpns addr amount) : v < 2 ^ 36 := by
  obtain ⟨a, -, rfl⟩ := mem_map.1 h
  exact vpn_lt a

theorem vpns_eq (addr amount : Nat) :
    vpns addr amount = (List.range amount).map fun i => (addr / PAGE_SIZE + i) % 2 ^ 36 := by
  rw [vpns, pageAddrs, map_map]
  refine map_congr_left fun i _ => ?_
  simp only [Function.comp_apply, vpn, PAGE_SIZE]
  omega

@[simp] theorem length_vpns (addr amount : Nat) : (vpns addr amount).length = amount := by
  rw [vpns_eq, length_map, length_range]

theorem vpns_nodup (addr : Nat) (h : amount ≤ 2 ^ 36) : (vpns addr amount).Nodup := by
  rw [vpns_eq]
  refine nodup_range.map_on fun i hi j hj heq => ?_
  rw [mem_range] at hi hj
  omega

theorem vpns_subset_of_le (addr : Nat) {n : Nat} (h : n ≤ amount) : vpns addr n ⊆ vpns addr amount := by
  intro v hv
  rw [vpns_eq] at hv ⊢
  obtain ⟨i, hi, rfl⟩ := mem_map.1 hv
  rw [mem_range] at hi
  exact mem_map.2 ⟨i, mem_range.2 (by omega), rfl⟩

/-- How many pages have the callback ID. -/
def tagged (t : pml_t) (id : Nat) : Nat := ((Finset.range (2 ^ 36)).filter fun v => Tagged (page t v) id).card

/-- No page of the list belongs to a callback. -/
def Untagged (t : pml_t) (l : List Nat) : Prop :=
  ∀ v ∈ l, Entry.present (page t v) = true → Entry.callbackId (page t v) = PML_CALLBACK_NONE

instance (t : pml_t) (l : List Nat) : Decidable (Untagged t l) := by
  unfold Untagged
  infer_instance

theorem Untagged.not_tagged (h : Untagged t l) {v : Nat} (hv : v ∈ l)
    (hid : id < PML_MAX_CALLBACK) : ¬Tagged (page t v) id := by
  rintro ⟨hp, rfl⟩
  rw [h v hv hp] at hid
  exact absurd hid (by decide)

/-- The same pages belong to each callback. -/
def SameTags (t t' : pml_t) : Prop :=
  ∀ v < 2 ^ 36, ∀ id < PML_MAX_CALLBACK, Tagged (page t' v) id ↔ Tagged (page t v) id

theorem SameTags.refl (t : pml_t) : SameTags t t := fun _ _ _ _ => Iff.rfl

theorem SameTags.trans {t'' : pml_t} (h : SameTags t t') (h' : SameTags t' t'') : SameTags t t'' :=
  fun v hv id hid => (h' v hv id hid).trans (h v hv id hid)

theorem SameTags.tagged_eq (h : SameTags t t') (hid : id < PML_MAX_CALLBACK) : tagged t' id = tagged t id :=
  congrArg Finset.card (Finset.filter_congr fun v hv => h v (Finset.mem_range.1 hv) id hid)

theorem callbackId_lt (e : pml_entry_t) : Entry.callbackId e < 2 ^ 8 := by
  have h0 : Lib.field e 11 1 < 2 ^ 1 := (e.extractLsb' 11 1).isLt
  have h1 : Lib.field e 52 7 < 2 ^ 7 := (e.extractLsb' 52 7).isLt
  have h2 : Lib.field e 11 1 < 2 ^ 8 := by omega
  refine Nat.or_lt_two_pow h2 ?_
  rw [Nat.shiftLeft_eq]
  omega

theorem SameTags.untagged (h : SameTags t t') {l' : List Nat} (hl : ∀ v ∈ l, v < 2 ^ 36)
    (hu : Untagged t l) (hsub : l' ⊆ l) : Untagged t' l' := by
  intro v hv hp
  by_contra hne
  have hlt : Entry.callbackId (page t' v) < PML_MAX_CALLBACK := by
    have := callbackId_lt (page t' v)
    have hmax : PML_MAX_CALLBACK = 255 := rfl
    have hnone : PML_CALLBACK_NONE = 255 := rfl
    omega
  exact hu.not_tagged (hsub hv) hlt ((h v (hl v (hsub hv)) _ hlt).1 ⟨hp, rfl⟩)

/-! ## Unmapping -/

theorem sameTags_unmap (mem : σ) (h : Untagged t (vpns addr amount)) :
    SameTags t (page_table_clear env (page_table_unmap env t mem addr amount) mem addr amount).1 := by
  intro v hv id hid
  rw [page_clear_unmap env t mem addr amount hv]
  split
  · rename_i hm
    exact iff_of_false (not_tagged_zero id) (h.not_tagged hm hid)
  · rfl

theorem tagged_unmap (t : pml_t) (mem : σ) (h : amount ≤ 2 ^ 36) (id : Nat) :
    tagged (page_table_clear env (page_table_unmap env t mem addr amount) mem addr amount).1 id +
      (vpns addr amount).countP (fun v => Tagged (page t v) id) = tagged t id := by
  have hcount : (vpns addr amount).countP (fun v => Tagged (page t v) id) =
      ((vpns addr amount).toFinset.filter fun v => Tagged (page t v) id).card := by
    rw [countP_eq_length_filter, ← toFinset_card_of_nodup ((vpns_nodup addr h).filter _), toFinset_filter]
    simp only [decide_eq_true_eq]
  have hleft : ((Finset.range (2 ^ 36)).filter fun v =>
      Tagged (page (page_table_clear env (page_table_unmap env t mem addr amount) mem addr amount).1 v) id) =
      ((Finset.range (2 ^ 36)).filter fun v => Tagged (page t v) id) \
        ((vpns addr amount).toFinset.filter fun v => Tagged (page t v) id) := by
    ext v
    simp only [Finset.mem_filter, Finset.mem_range, Finset.mem_sdiff, mem_toFinset, not_and]
    refine ⟨fun ⟨hv, ht⟩ => ?_, fun ⟨⟨hv, ht⟩, hn⟩ => ⟨hv, ?_⟩⟩
    · rw [page_clear_unmap env t mem addr amount hv] at ht
      split at ht
      · exact absurd ht (not_tagged_zero id)
      · rename_i hnot
        exact ⟨⟨hv, ht⟩, fun hm => absurd hm hnot⟩
    · rw [page_clear_unmap env t mem addr amount hv, if_neg fun hm => hn hm ht]
      exact ht
  rw [hcount, tagged, hleft]
  refine Finset.card_sdiff_add_card_eq_card fun v hv => ?_
  obtain ⟨hm, ht⟩ := Finset.mem_filter.1 hv
  exact Finset.mem_filter.2 ⟨Finset.mem_range.2 (lt_of_mem_vpns (mem_toFinset.1 hm)), ht⟩

/-! ## Mapping -/

/-- The call maps the pages of the list: it changes no other page, and on success
the pages were absent and distinct, and have the callback ID. -/
def Maps (mapPages : pml_t → σ → Nat → Bool × pml_t × σ) (l : List Nat) : Prop :=
  ∀ t mem id, id < 256 →
    (∀ v < 2 ^ 36, v ∉ l → page (mapPages t mem id).2.1 v = page t v) ∧
      ((mapPages t mem id).1 = true →
        l.Nodup ∧ ∀ v ∈ l, Entry.present (page t v) = false ∧ Tagged (page (mapPages t mem id).2.1 v) id)

theorem map_vpn_zip (h : l.length = amount) :
    ((pageAddrs addr amount).zip l).map (fun x => vpn x.1) = vpns addr amount := by
  have hlen : (pageAddrs addr amount).length ≤ l.length := by simp [pageAddrs, h]
  have hfst := map_fst_zip hlen
  rw [vpns]
  nth_rewrite 2 [← hfst]
  rw [map_map]
  rfl

theorem maps_map (addr phys amount : Nat) (hf : Entry.present flags = true) :
    Maps (fun t mem id => page_table_map env t mem addr phys amount flags id) (vpns addr amount) := by
  intro t mem id hid
  have h := mapLoop_spec env t mem hf hid traverse_create_invalid
    ((pageAddrs addr amount).zip ((pageAddrs phys amount).map (· / PAGE_SIZE)))
  rw [map_vpn_zip (by simp [pageAddrs])] at h
  simp only [page_table_map, hf, Bool.not_true, Bool.false_eq_true, if_false]
  exact h

theorem maps_map_pages (addr : Nat) (pfns : Nat → Nat) (amount : Nat) (hf : Entry.present flags = true) :
    Maps (fun t mem id => page_table_map_pages env t mem addr pfns amount flags id) (vpns addr amount) := by
  intro t mem id hid
  have h := mapLoop_spec env t mem hf hid traverse_create_invalid
    ((pageAddrs addr amount).zip ((List.range amount).map pfns))
  rw [map_vpn_zip (by simp)] at h
  simp only [page_table_map_pages, hf, Bool.not_true, Bool.false_eq_true, if_false]
  exact h

/-- Pages mapped without a callback belong to none, whether the call succeeds or
stops halfway. -/
theorem sameTags_map_pages (t : pml_t) (mem : σ) (addr : Nat) (pfns : Nat → Nat) (amount : Nat)
    (hf : Entry.present flags = true) :
    SameTags t (page_table_map_pages env t mem addr pfns amount flags PML_CALLBACK_NONE).2.1 := by
  intro v hv id hid
  simp only [page_table_map_pages, hf, Bool.not_true, Bool.false_eq_true, if_false]
  rcases mapLoop_cases env t mem flags PML_CALLBACK_NONE traverse_create_invalid
      ((pageAddrs addr amount).zip ((List.range amount).map pfns)) hv with heq | ⟨habs, pfn, hnew⟩
  · rw [heq]
  · refine iff_of_false (fun h => ?_) (not_tagged_of_absent habs id)
    rw [← h.2, hnew, Entry.callbackId_setCallbackId _ (by decide)] at hid
    exact absurd hid (by decide)

theorem Maps.sameTags_none (hm : Maps mapPages l)
    {mem' : σ} (h : mapPages t mem PML_CALLBACK_NONE = (true, t', mem')) : SameTags t t' := by
  obtain ⟨hout, hin⟩ := hm t mem PML_CALLBACK_NONE (by decide)
  rw [h] at hout hin
  obtain ⟨-, hin⟩ := hin rfl
  intro v hv id hid
  by_cases hl : v ∈ l
  · refine iff_of_false (fun ht => ?_) (not_tagged_of_absent (hin v hl).1 id)
    rw [← ht.2, (hin v hl).2.2] at hid
    exact absurd hid (by decide)
  · rw [hout v hv hl]

theorem Maps.sameTags_undone (hm : Maps mapPages (vpns addr amount)) {mem' : σ} (hid : id < 256) {ok : Bool}
    (hu : Untagged t (vpns addr amount)) (h : mapPages t mem id = (ok, t', mem')) :
    SameTags t (page_table_clear env (page_table_unmap env t' mem' addr amount) mem' addr amount).1 := by
  have hout := (hm t mem id hid).1
  rw [h] at hout
  intro v hv j hj
  rw [page_clear_unmap env t' mem' addr amount hv]
  split
  · rename_i hl
    exact iff_of_false (not_tagged_zero j) (hu.not_tagged hl hj)
  · rename_i hl
    rw [hout v hv hl]

/-- Mapping with a callback ID that no page had. -/
theorem Maps.tagged_eq (hm : Maps mapPages l) (hlt : ∀ v ∈ l, v < 2 ^ 36) (hid : id < 256)
    (hok : (mapPages t mem id).1 = true) (j : Nat) :
    tagged (mapPages t mem id).2.1 j = tagged t j + if j = id then l.length else 0 := by
  obtain ⟨hout, hin⟩ := hm t mem id hid
  obtain ⟨hnd, hin⟩ := hin hok
  by_cases hj : j = id
  · subst hj
    have hunion : ((Finset.range (2 ^ 36)).filter fun v => Tagged (page (mapPages t mem j).2.1 v) j) =
        ((Finset.range (2 ^ 36)).filter fun v => Tagged (page t v) j) ∪ l.toFinset := by
      ext v
      simp only [Finset.mem_filter, Finset.mem_range, Finset.mem_union, mem_toFinset]
      by_cases hv : v ∈ l
      · exact iff_of_true ⟨hlt v hv, (hin v hv).2⟩ (.inr hv)
      · simp only [hv, or_false]
        refine and_congr_right fun hlt => ?_
        rw [hout v hlt hv]
    have hdisj : Disjoint ((Finset.range (2 ^ 36)).filter fun v => Tagged (page t v) j) l.toFinset := by
      refine Finset.disjoint_left.2 fun v hv hl => ?_
      exact not_tagged_of_absent (hin v (mem_toFinset.1 hl)).1 j (Finset.mem_filter.1 hv).2
    rw [tagged, hunion, Finset.card_union_of_disjoint hdisj, toFinset_card_of_nodup hnd, if_pos rfl, tagged]
  · rw [if_neg hj, Nat.add_zero]
    refine congrArg Finset.card (Finset.filter_congr fun v hv => ?_)
    by_cases hl : v ∈ l
    · refine iff_of_false (fun h => hj (h.2.symm.trans (hin v hl).2.2)) (not_tagged_of_absent (hin v hl).1 j)
    · rw [hout v (Finset.mem_range.1 hv) hl]

theorem tagged_map (t : pml_t) (mem : σ) {phys : Nat} (hf : Entry.present flags = true) (hid : id < 256)
    (hok : (page_table_map env t mem addr phys amount flags id).1 = true) (j : Nat) :
    tagged (page_table_map env t mem addr phys amount flags id).2.1 j = tagged t j + if j = id then amount else 0 := by
  have h := (maps_map env addr phys amount hf).tagged_eq (fun v => lt_of_mem_vpns) hid hok j
  rwa [length_vpns] at h

/-- An environment without free frames. -/
def noFrames : Env Unit where
  allocPages _ _ := (none, ())
  freePages _ _ := ()
  malloc _ _ := (false, ())

end Patchwork.Paging
