import Patchwork.Mem.PmmInit
/-!
# Giving back the boot memory (`kernel/init/boot_info.c`)

`pmm_load_memory` sets the reference count of every page that is not available to its
largest value, and the memory of the boot loader is not available. `boot_info_free` frees
each of its pages once, which takes one from the count and gives nothing back.
-/

namespace Patchwork.Pmm

open List

/-- The loop of `boot_info_free`; the descriptors are those of the copy. -/
def boot_info_free (map : List EFI_MEMORY_DESCRIPTOR) (s : State) : State :=
  map.foldl (fun s desc =>
    if desc.type = .EfiLoaderData then pmm_free_region s desc.start desc.NumberOfPages else s) s

/-- The number of pages of the `EfiLoaderData` descriptors. -/
def loaderPages (map : List EFI_MEMORY_DESCRIPTOR) : Nat :=
  ((map.filter fun desc => desc.type = .EfiLoaderData).map EFI_MEMORY_DESCRIPTOR.NumberOfPages).sum

/-- Every page of the boot loader is free, and counted. -/
structure Reclaimed (map : List EFI_MEMORY_DESCRIPTOR) (s s' : State) : Prop where
  free : ∀ desc ∈ map, desc.type = .EfiLoaderData → ∀ p, desc.Covers p → s'.ref p = 0
  avail : s'.avail = s.avail + loaderPages map

variable {map : MemoryMap} {pagesPfn p : Nat} {s : State} {arr desc : EFI_MEMORY_DESCRIPTOR}

/-! ## The reference counts after `pmm_init` -/

theorem free_unlocked_ref_of_ne {q : Nat} (h : p ≠ q) (s : State) : (pmm_free_unlocked s q).ref p = s.ref p := by
  have hset (v : Nat) : ((s.assert (s.ref q > 0)).setRef q v).ref p = s.ref p := Function.update_of_ne h ..
  rw [pmm_free_unlocked]
  split
  · exact hset _
  · exact (congrFun (giveBack_onlyFree _ q).ref p).trans (hset _)

theorem loadDescriptor_ref (ha : map.HasArray pagesPfn arr) (hd : desc ∈ map.descriptors) (hp : ¬ desc.Covers p) :
    (loadDescriptor map.highest pagesPfn s desc).ref p = s.ref p := by
  have hnot : p ∉ map.loaded pagesPfn desc := fun hm => hp (MemoryMap.covers_of_loaded hm)
  have hfree (l : List Nat) (hl : p ∉ l) (s : State) : (l.foldl pmm_free_unlocked s).ref p = s.ref p := by
    induction l generalizing s with
    | nil => rfl
    | cons q l ih =>
      have hne : p ≠ q := fun h => hl (h ▸ mem_cons_self)
      rw [foldl_cons, ih fun hm => hl (mem_cons_of_mem _ hm), free_unlocked_ref_of_ne hne]
  rw [loadDescriptor_eq ha hd]
  split
  · rw [hfree _ hnot, foldl_setRef]
    exact if_neg hnot
  · rw [foldl_setRef]
    exact if_neg hnot

/-- A page of a reserved descriptor has the largest count. -/
theorem foldl_loadDescriptor_ref (ha : map.HasArray pagesPfn arr) (hd : desc ∈ map.descriptors)
    (hav : pmm_is_mem_avail desc.type = false) (hp : p ∈ map.loaded pagesPfn desc) {l : List EFI_MEMORY_DESCRIPTOR}
    (hl : ∀ e ∈ l, e ∈ map.descriptors) (hs : s.ref p = UINT16_MAX ∨ desc ∈ l) :
    (l.foldl (loadDescriptor map.highest pagesPfn) s).ref p = UINT16_MAX := by
  induction l generalizing s with
  | nil => exact hs.resolve_right (by simp)
  | cons e l ih =>
    have he := hl e mem_cons_self
    refine ih (fun x hx => hl x (mem_cons_of_mem _ hx)) ?_
    by_cases hed : e = desc
    · subst hed
      left
      rw [loadDescriptor_eq ha hd, if_neg (by simp [hav]), foldl_setRef]
      exact if_pos hp
    · have hcov : ¬ e.Covers p := fun h => hed (MemoryMap.eq_of_covers he hd h (MemoryMap.covers_of_loaded hp))
      rw [loadDescriptor_ref ha he hcov]
      exact hs.imp_right fun hm => (mem_cons.1 hm).resolve_left (Ne.symm hed)

theorem init_ref {ref : Nat → Nat} {memory : Nat → page_stack_t}
    (h : pmm_init map.descriptors (initial ref memory) = some (pagesPfn, s)) (hd : desc ∈ map.descriptors)
    (ht : desc.type = .EfiLoaderData) (hp : desc.Covers p) : s.ref p = UINT16_MAX := by
  obtain ⟨pagesPfn', hrefs, heq⟩ := Option.map_eq_some_iff.1 h
  obtain ⟨rfl, rfl⟩ := Prod.mk.inj heq
  obtain ⟨arr, ha, hconv⟩ := MemoryMap.hasArray_of_init_refs hrefs
  refine foldl_loadDescriptor_ref ha hd (by rw [ht]; rfl) ?_ (fun _ he => he) (.inr hd)
  refine (MemoryMap.mem_loaded ha hd).2 ⟨hp, fun hin => ?_⟩
  -- the array lies in conventional memory
  have harr : arr.Covers p := by
    have hroom := ha.room
    have hstart := ha.start
    exact ⟨by omega, by omega⟩
  rw [MemoryMap.eq_of_covers hd ha.mem hp harr, hconv] at ht
  cases ht

/-! ## Freeing -/

/-- One reference less of the largest count frees nothing. -/
theorem foldl_free_reserved {l : List Nat} (hnd : l.Nodup) (h : ∀ p ∈ l, s.ref p = UINT16_MAX) :
    l.foldl pmm_free_unlocked s = { s with ref := fun p => if p ∈ l then UINT16_MAX - 1 else s.ref p } := by
  induction l generalizing s with
  | nil => simp
  | cons q l ih =>
    obtain ⟨hq, hnd⟩ := nodup_cons.1 hnd
    have hone : pmm_free_unlocked s q = s.setRef q (UINT16_MAX - 1) := by
      simp [pmm_free_unlocked, State.assert, State.setRef, h q mem_cons_self, UINT16_MAX]
    have hne : ∀ p ∈ l, p ≠ q := fun p hp he => hq (he ▸ hp)
    rw [foldl_cons, hone, ih hnd fun p hp => by simp [State.setRef, hne p hp, h p (mem_cons_of_mem _ hp)]]
    simp only [State.setRef, State.mk.injEq, and_true]
    funext p
    by_cases hpq : p = q
    · simp [hpq]
    · simp [hpq]

theorem boot_info_free_avail {l : List EFI_MEMORY_DESCRIPTOR} (hl : ∀ e ∈ l, e ∈ map.descriptors)
    (hapart : l.Pairwise EFI_MEMORY_DESCRIPTOR.Apart)
    (h : ∀ desc ∈ l, desc.type = .EfiLoaderData → ∀ p, desc.Covers p → s.ref p = UINT16_MAX) :
    (boot_info_free l s).avail = s.avail := by
  induction l generalizing s with
  | nil => rfl
  | cons e l ih =>
    obtain ⟨he, hapart⟩ := pairwise_cons.1 hapart
    have hb := map.bounded e (hl e mem_cons_self)
    have htail := fun x hx => hl x (mem_cons_of_mem e hx)
    rw [boot_info_free, foldl_cons]
    by_cases ht : e.type = .EfiLoaderData
    · have hregion : region e.start e.NumberOfPages = List.range' e.start e.NumberOfPages := region_eq (by omega)
      rw [if_pos ht, pmm_free_region, pmm_free_region_unlocked, hregion, foldl_free_reserved nodup_range'
        fun p hp => h e mem_cons_self ht p (mem_range'_1.1 hp)]
      refine ih htail hapart fun desc hd hdt p hp => ?_
      -- the descriptors do not overlap
      have hnot : p ∉ List.range' e.start e.NumberOfPages := fun hm => by
        have := mem_range'_1.1 hm
        have := he desc hd
        unfold EFI_MEMORY_DESCRIPTOR.Covers at hp
        unfold EFI_MEMORY_DESCRIPTOR.Apart at this
        omega
      exact (if_neg hnot).trans (h desc (mem_cons_of_mem _ hd) hdt p hp)
    · rw [if_neg ht]
      exact ih htail hapart fun desc hd => h desc (mem_cons_of_mem _ hd)

/-- However the other pages have been used since, the boot memory comes back exactly if
there is none. -/
theorem reclaimed_iff {ref : Nat → Nat} {memory : Nat → page_stack_t}
    (h : pmm_init map.descriptors (initial ref memory) = some (pagesPfn, s)) {t : State}
    (hsame : ∀ desc ∈ map.descriptors, desc.type = .EfiLoaderData → ∀ p, desc.Covers p → t.ref p = s.ref p) :
    Reclaimed map.descriptors t (boot_info_free map.descriptors t) ↔
      ∀ desc ∈ map.descriptors, desc.type ≠ .EfiLoaderData := by
  have hrefs : ∀ desc ∈ map.descriptors, desc.type = .EfiLoaderData → ∀ p, desc.Covers p → t.ref p = UINT16_MAX :=
    fun desc hd ht p hp => (hsame desc hd ht p hp).trans (init_ref h hd ht hp)
  have havail := boot_info_free_avail (fun _ he => he) map.disjoint hrefs
  constructor
  · rintro ⟨-, hsum⟩ desc hd ht
    have hzero : loaderPages map.descriptors = 0 := by omega
    have hmem : desc ∈ map.descriptors.filter fun desc => desc.type = .EfiLoaderData :=
      List.mem_filter.2 ⟨hd, decide_eq_true ht⟩
    have hn := List.sum_eq_zero_iff_forall_eq_nat.1 hzero _ (List.mem_map_of_mem hmem)
    exact absurd hn (map.nonempty desc hd).ne'
  · intro hno
    refine ⟨fun desc hd ht => absurd ht (hno desc hd), ?_⟩
    have hnil : (map.descriptors.filter fun desc => desc.type = .EfiLoaderData) = [] :=
      filter_eq_nil_iff.2 fun desc hd => by simpa using hno desc hd
    rw [havail, loaderPages, hnil]
    rfl

theorem lowMemory_reclaimed : ∃ s, pmm_init lowMemory.descriptors (initial (fun _ => 0) noMemory) = some (0, s) ∧
    Reclaimed lowMemory.descriptors s (boot_info_free lowMemory.descriptors s) := by
  obtain ⟨s, hs⟩ := lowMemory_init
  exact ⟨s, hs, (reclaimed_iff hs fun _ _ _ _ _ => rfl).2 (by decide)⟩

/-- Ten pages of conventional memory, nine for the array, and a page of the boot loader. -/
def bootMemory : List EFI_MEMORY_DESCRIPTOR :=
  [{ type := .EfiConventionalMemory, start := 0x4000, NumberOfPages := 10 },
    { type := .EfiLoaderData, start := 0x4010, NumberOfPages := 1 }]

/-- The count goes from 65535 to 65534, and no page is gained. -/
theorem bootMemory_not_reclaimed : ∃ s, pmm_init bootMemory (initial (fun _ => 0) noMemory) = some (0x4000, s) ∧
    s.ref 0x4010 = 65535 ∧ (boot_info_free bootMemory s).ref 0x4010 = 65534 ∧
    ¬ Reclaimed bootMemory s (boot_info_free bootMemory s) := by
  have hrun : (pmm_init bootMemory (initial (fun _ => 0) noMemory)).map (fun r =>
      (r.1, r.2.ref 0x4010, (boot_info_free bootMemory r.2).ref 0x4010,
      decide ((boot_info_free bootMemory r.2).avail = r.2.avail))) =
        some (0x4000, 65535, 65534, true) := by
    decide +kernel
  obtain ⟨⟨pagesPfn, s⟩, hinit, heq⟩ := Option.map_eq_some_iff.1 hrun
  simp only [Prod.mk.injEq, decide_eq_true_eq] at heq
  obtain ⟨rfl, hbefore, hafter, havail⟩ := heq
  refine ⟨s, hinit, hbefore, hafter, fun h => ?_⟩
  have hsum := h.avail
  have hone : loaderPages bootMemory = 1 := by decide
  omega

end Patchwork.Pmm
