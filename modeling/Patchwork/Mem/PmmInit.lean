import Patchwork.Mem.PmmAccount
/-!
# Booting the physical memory manager (`pmm_init`)

`pmm_init` reads the memory map of the firmware: the array `pages` goes to the
start of the first descriptor of conventional memory with room for it, the
pages of available descriptors are freed, and those of the others get a
reference count that never falls to 0.

The bitmap of the low pages should begin with every bit set, so that only
available descriptors clear any. `BITMAP_CREATE_ONE` sets the first 64 of its
16384 bits. A page from 64 on that no available descriptor covers, or that the
array lies in, is thus handed out all the same.

The `memset` of debug builds is left out: it writes to pages that are not yet in
the stack.
-/

namespace Patchwork.Pmm

open List Option Lib

/-- The memory types of UEFI; `other` is any number that has no name. -/
inductive EFI_MEMORY_TYPE where
  | EfiReservedMemoryType
  | EfiLoaderCode
  | EfiLoaderData
  | EfiBootServicesCode
  | EfiBootServicesData
  | EfiRuntimeServicesCode
  | EfiRuntimeServicesData
  | EfiConventionalMemory
  | EfiUnusableMemory
  | EfiACPIReclaimMemory
  | EfiACPIMemoryNVS
  | EfiMemoryMappedIO
  | EfiMemoryMappedIOPortSpace
  | EfiPalCode
  | EfiPersistentMemory
  | other (type : Nat)
  deriving DecidableEq

/-- A descriptor; `start` is `VIRT_TO_PFN(VirtualStart)`. -/
structure EFI_MEMORY_DESCRIPTOR where
  type : EFI_MEMORY_TYPE
  start : Nat
  NumberOfPages : Nat

def boot_is_mem_ram : EFI_MEMORY_TYPE → Bool
  | .EfiConventionalMemory | .EfiLoaderCode | .EfiLoaderData | .EfiBootServicesCode | .EfiBootServicesData
  | .EfiRuntimeServicesCode | .EfiRuntimeServicesData | .EfiACPIReclaimMemory | .EfiACPIMemoryNVS => true
  | _ => false

def pmm_is_mem_avail (type : EFI_MEMORY_TYPE) : Bool :=
  if !boot_is_mem_ram type then false
  else
    match type with
    | .EfiConventionalMemory | .EfiLoaderCode | .EfiBootServicesCode | .EfiBootServicesData => true
    | _ => false

/-- The value of `highest` that `pmm_detect_memory` leaves. -/
def pmm_detect_memory (map : List EFI_MEMORY_DESCRIPTOR) : Nat :=
  map.foldl (fun highest desc => max highest ((desc.start + desc.NumberOfPages) % 2 ^ 64)) 0

/-- `BYTES_TO_PAGES(highest * sizeof(page_t))`, where a `page_t` is a `uint16_t`. -/
def arrayPages (highest : Nat) : Nat := BYTES_TO_PAGES (highest * 2 % 2 ^ 64)

/-- The page that `pages` begins at; `none` is the panic. -/
def pmm_init_refs (map : List EFI_MEMORY_DESCRIPTOR) (highest : Nat) : Option Nat :=
  (map.find? fun desc => decide (desc.type = .EfiConventionalMemory ∧ desc.NumberOfPages ≥ arrayPages highest)).map
    EFI_MEMORY_DESCRIPTOR.start

/-- The body of the loop of `pmm_load_memory`. -/
def loadDescriptor (highest pagesPfn : Nat) (s : State) (desc : EFI_MEMORY_DESCRIPTOR) : State :=
  let toSkip := arrayPages highest
  let (pfn, amount) :=
    if desc.start = pagesPfn then ((desc.start + toSkip) % 2 ^ 64, (desc.NumberOfPages + 2 ^ 64 - toSkip) % 2 ^ 64)
    else (desc.start, desc.NumberOfPages)
  if pmm_is_mem_avail desc.type then
    pmm_free_region_unlocked ((region pfn amount).foldl (fun s p => s.setRef p 1) s) pfn amount
  else (region pfn amount).foldl (fun s p => s.setRef p UINT16_MAX) s

def pmm_load_memory (map : List EFI_MEMORY_DESCRIPTOR) (highest pagesPfn : Nat) (s : State) : State :=
  map.foldl (loadDescriptor highest pagesPfn) s

/-- The page that `pages` begins at, and the state; the reference counts of `s`
are what the memory of the array happens to hold. -/
def pmm_init (map : List EFI_MEMORY_DESCRIPTOR) (s : State) : Option (Nat × State) :=
  let highest := pmm_detect_memory map
  (pmm_init_refs map highest).map fun pagesPfn => (pagesPfn, pmm_load_memory map highest pagesPfn s)

/-- The variables of `pmm.c` before `pmm_init`. -/
def initial (ref : Nat → Nat) (memory : Nat → page_stack_t) : State where
  ref := ref
  stack := none
  location := FREE_PAGE_MAX
  bitmap := BITMAP_CREATE_ONE BITMAP_PAGES
  avail := 0
  memory := memory
  failed := false

/-! ## Memory maps -/

def EFI_MEMORY_DESCRIPTOR.Covers (desc : EFI_MEMORY_DESCRIPTOR) (p : Nat) : Prop :=
  desc.start ≤ p ∧ p < desc.start + desc.NumberOfPages

instance (desc : EFI_MEMORY_DESCRIPTOR) (p : Nat) : Decidable (desc.Covers p) := by
  unfold EFI_MEMORY_DESCRIPTOR.Covers
  infer_instance

/-- The two descriptors do not overlap. -/
def EFI_MEMORY_DESCRIPTOR.Apart (d e : EFI_MEMORY_DESCRIPTOR) : Prop :=
  d.start + d.NumberOfPages ≤ e.start ∨ e.start + e.NumberOfPages ≤ d.start

instance : Std.Symm EFI_MEMORY_DESCRIPTOR.Apart := ⟨fun _ _ => Or.symm⟩

open EFI_MEMORY_DESCRIPTOR

/-- Descriptors that do not overlap, each of one page or more below the end of
the address space. -/
structure MemoryMap where
  descriptors : List EFI_MEMORY_DESCRIPTOR
  nonempty : ∀ desc ∈ descriptors, 0 < desc.NumberOfPages
  bounded : ∀ desc ∈ descriptors, desc.start + desc.NumberOfPages ≤ 2 ^ 52
  disjoint : descriptors.Pairwise Apart

variable {l : List EFI_MEMORY_DESCRIPTOR} {desc arr : EFI_MEMORY_DESCRIPTOR} {p : Nat} {s : State}

namespace MemoryMap

variable (map : MemoryMap)

def highest : Nat := pmm_detect_memory map.descriptors

/-- The page lies in an available descriptor and outside the array at `pagesPfn`. -/
def Usable (pagesPfn p : Nat) : Prop :=
  (∃ desc ∈ map.descriptors, pmm_is_mem_avail desc.type = true ∧ desc.Covers p) ∧
    ¬(pagesPfn ≤ p ∧ p < pagesPfn + arrayPages map.highest)

instance (pagesPfn p : Nat) : Decidable (map.Usable pagesPfn p) := by
  unfold Usable
  infer_instance

theorem foldl_highest_le {n b : Nat} (hn : n ≤ b) (h : ∀ desc ∈ l, desc.start + desc.NumberOfPages ≤ b) :
    l.foldl (fun highest desc => max highest ((desc.start + desc.NumberOfPages) % 2 ^ 64)) n ≤ b := by
  induction l generalizing n with
  | nil => exact hn
  | cons d l ih =>
    have hd := h d mem_cons_self
    have hmod := Nat.mod_le (d.start + d.NumberOfPages) (2 ^ 64)
    exact ih (Nat.max_le.2 ⟨hn, by omega⟩) fun e he => h e (mem_cons_of_mem _ he)

theorem le_foldl_highest {n b : Nat} (h : b ≤ n ∨ ∃ desc ∈ l, b = (desc.start + desc.NumberOfPages) % 2 ^ 64) :
    b ≤ l.foldl (fun highest desc => max highest ((desc.start + desc.NumberOfPages) % 2 ^ 64)) n := by
  induction l generalizing n with
  | nil => exact h.resolve_right (by simp)
  | cons d l ih =>
    refine ih ?_
    rcases h with h | ⟨e, he, rfl⟩
    · exact .inl (Nat.le_trans h (Nat.le_max_left _ _))
    · rcases mem_cons.1 he with rfl | he
      · exact .inl (Nat.le_max_right _ _)
      · exact .inr ⟨e, he, rfl⟩

theorem highest_le : map.highest ≤ 2 ^ 52 := foldl_highest_le (Nat.zero_le _) map.bounded

variable {map}

theorem end_le_highest (h : desc ∈ map.descriptors) : desc.start + desc.NumberOfPages ≤ map.highest := by
  have hb := map.bounded desc h
  exact le_foldl_highest (.inr ⟨desc, h, (Nat.mod_eq_of_lt (by omega)).symm⟩)

theorem eq_of_covers {d e : EFI_MEMORY_DESCRIPTOR} (hd : d ∈ map.descriptors) (he : e ∈ map.descriptors)
    (hdp : d.Covers p) (hep : e.Covers p) : d = e := by
  by_contra hne
  have hapart := map.disjoint.forall hd he hne
  unfold EFI_MEMORY_DESCRIPTOR.Covers at hdp hep
  unfold EFI_MEMORY_DESCRIPTOR.Apart at hapart
  omega

/-- The array is at the start of a descriptor of conventional memory. -/
structure HasArray (map : MemoryMap) (pagesPfn : Nat) (desc : EFI_MEMORY_DESCRIPTOR) : Prop where
  mem : desc ∈ map.descriptors
  start : desc.start = pagesPfn
  room : arrayPages map.highest ≤ desc.NumberOfPages

variable {pagesPfn : Nat}

theorem HasArray.eq_of_start (ha : HasArray map pagesPfn arr) (hd : desc ∈ map.descriptors)
    (hs : desc.start = pagesPfn) : desc = arr := by
  have hn := map.nonempty desc hd
  have hna := map.nonempty arr ha.mem
  have hstart := ha.start
  exact eq_of_covers hd ha.mem (p := desc.start) ⟨Nat.le_refl _, by omega⟩ ⟨by omega, by omega⟩

theorem hasArray_of_init_refs (h : pmm_init_refs map.descriptors map.highest = some pagesPfn) :
    ∃ desc, HasArray map pagesPfn desc ∧ desc.type = .EfiConventionalMemory := by
  obtain ⟨desc, hfind, hstart⟩ := map_eq_some_iff.1 h
  have hp := find?_some hfind
  rw [decide_eq_true_eq] at hp
  exact ⟨desc, ⟨mem_of_find?_eq_some hfind, hstart, hp.2⟩, hp.1⟩

/-- The managed pages after booting are the usable ones. -/
def managed (map : MemoryMap) (pagesPfn : Nat) : Managed where
  pages := (Finset.range map.highest).filter (map.Usable pagesPfn)
  highest := map.highest
  lt := fun _ hp => Finset.mem_range.1 (Finset.mem_filter.1 hp).1
  le := map.highest_le

theorem mem_managed : p ∈ (managed map pagesPfn).pages ↔ map.Usable pagesPfn p := by
  simp only [managed, Finset.mem_filter, Finset.mem_range, and_iff_right_iff_imp]
  rintro ⟨⟨desc, hd, -, -, hp⟩, -⟩
  exact Nat.lt_of_lt_of_le hp (end_le_highest hd)

/-- The pages of a descriptor that are loaded: those behind the array. -/
def loaded (map : MemoryMap) (pagesPfn : Nat) (desc : EFI_MEMORY_DESCRIPTOR) : List Nat :=
  let toSkip := if desc.start = pagesPfn then arrayPages map.highest else 0
  List.range' (desc.start + toSkip) (desc.NumberOfPages - toSkip)

/-- The pages that loading these descriptors frees. -/
def freed (map : MemoryMap) (pagesPfn : Nat) (l : List EFI_MEMORY_DESCRIPTOR) : List Nat :=
  l.flatMap fun desc => if pmm_is_mem_avail desc.type then loaded map pagesPfn desc else []

theorem covers_of_loaded (h : p ∈ loaded map pagesPfn desc) : desc.Covers p := by
  unfold loaded at h
  simp only [mem_range'_1] at h
  unfold EFI_MEMORY_DESCRIPTOR.Covers
  omega

theorem mem_loaded (ha : HasArray map pagesPfn arr) (hd : desc ∈ map.descriptors) :
    p ∈ loaded map pagesPfn desc ↔ desc.Covers p ∧ ¬(pagesPfn ≤ p ∧ p < pagesPfn + arrayPages map.highest) := by
  have hroom := ha.room
  have hstart := ha.start
  unfold loaded
  by_cases heq : desc.start = pagesPfn
  · simp only [if_pos heq, mem_range'_1, EFI_MEMORY_DESCRIPTOR.Covers]
    obtain rfl := ha.eq_of_start hd heq
    omega
  · simp only [if_neg heq, mem_range'_1, Nat.add_zero, Nat.sub_zero]
    refine ⟨fun h => ⟨h, fun hin => heq ?_⟩, And.left⟩
    rw [eq_of_covers hd ha.mem (p := p) h ⟨by omega, by omega⟩, hstart]

theorem mem_freed (ha : HasArray map pagesPfn arr) :
    p ∈ freed map pagesPfn map.descriptors ↔ map.Usable pagesPfn p := by
  unfold freed Usable
  rw [mem_flatMap]
  constructor
  · rintro ⟨desc, hd, hp⟩
    split at hp
    · rename_i hav
      obtain ⟨h1, h2⟩ := (mem_loaded ha hd).1 hp
      exact ⟨⟨desc, hd, hav, h1⟩, h2⟩
    · cases hp
  · rintro ⟨⟨desc, hd, hav, h1⟩, h2⟩
    refine ⟨desc, hd, ?_⟩
    rw [if_pos hav]
    exact (mem_loaded ha hd).2 ⟨h1, h2⟩

theorem covers_of_freed (h : p ∈ freed map pagesPfn l) : ∃ desc ∈ l, desc.Covers p := by
  obtain ⟨desc, hd, hp⟩ := mem_flatMap.1 h
  split at hp
  · exact ⟨desc, hd, covers_of_loaded hp⟩
  · cases hp

end MemoryMap

/-! ## Loading -/

theorem foldl_setRef (l : List Nat) (s : State) (v : Nat) :
    l.foldl (fun s p => s.setRef p v) s = { s with ref := fun p => if p ∈ l then v else s.ref p } := by
  induction l generalizing s with
  | nil => simp
  | cons p l ih =>
    rw [foldl_cons, ih]
    simp only [State.setRef, State.mk.injEq, and_true]
    funext q
    by_cases hql : q ∈ l
    · simp [hql]
    · by_cases hqp : q = p <;> simp [hql, hqp]

theorem giveBack_firstZeroIdx (h : s.bitmap.firstZeroIdx = 0) (p : Nat) : (giveBack s p).bitmap.firstZeroIdx = 0 := by
  unfold giveBack
  split
  · unfold pmm_stack_push
    split
    · split <;> exact h
    · exact h
  · rw [pmm_bitmap_clear, firstZeroIdx_clear_range, h]
    simp

/-- What freeing the pages `l` of `s`, with one reference each, leads to. -/
structure FreedAll (s : State) (F : Finset Nat) (l : List Nat) (s' : State) : Prop where
  holds : Holds s' (F ∪ l.toFinset)
  ref : s'.ref = fun p => if p ∈ l then 0 else s.ref p
  avail : s'.avail = s.avail + l.length
  failed : s'.failed = s.failed
  first : s'.bitmap.firstZeroIdx = 0

theorem free_last {F : Finset Nat} (h : Holds s F) (h1 : s.ref p = 1)
    (hF : BITMAP_PAGES ≤ p → p ∉ F) (h0 : s.bitmap.firstZeroIdx = 0) (ha : s.avail + 1 < 2 ^ 64) :
    FreedAll s F [p] (pmm_free_unlocked s p) := by
  have heq : pmm_free_unlocked s p =
      { giveBack (s.setRef p 0) p with avail := ((giveBack (s.setRef p 0) p).avail + 1) % 2 ^ 64 } := by
    simp [pmm_free_unlocked, State.assert, h1]
  have hof := giveBack_onlyFree (s.setRef p 0) p
  have hbase : Holds (s.setRef p 0) F := h.congr rfl rfl rfl rfl
  rw [heq]
  refine ⟨?_, ?_, ?_, hof.failed, giveBack_firstZeroIdx (s := s.setRef p 0) h0 p⟩
  · rw [toFinset_cons, toFinset_nil, Finset.union_insert, Finset.union_empty]
    exact (giveBack_holds hbase hF).congr rfl rfl rfl rfl
  · simp only [hof.ref]
    funext q
    by_cases hqp : q = p <;> simp [State.setRef, hqp]
  · simp only [hof.avail]
    exact Nat.mod_eq_of_lt ha

/-- Whatever the bits of the low ones are. -/
theorem foldl_free_last {l : List Nat} {F : Finset Nat} (h : Holds s F) (hnd : l.Nodup)
    (h1 : ∀ p ∈ l, s.ref p = 1) (hF : ∀ p ∈ l, BITMAP_PAGES ≤ p → p ∉ F) (h0 : s.bitmap.firstZeroIdx = 0)
    (hlen : s.avail + l.length < 2 ^ 64) : FreedAll s F l (l.foldl pmm_free_unlocked s) := by
  induction l generalizing s F with
  | nil => exact ⟨by simpa using h, by simp, rfl, rfl, h0⟩
  | cons p l ih =>
    obtain ⟨hpl, hnd⟩ := nodup_cons.1 hnd
    have hne : ∀ q ∈ l, q ≠ p := fun q hq he => hpl (he ▸ hq)
    rw [length_cons] at hlen
    have hp := free_last h (h1 p mem_cons_self) (hF p mem_cons_self) h0 (by omega)
    rw [foldl_cons]
    have hl := ih hp.holds hnd
      (fun q hq => by
        simp only [hp.ref, mem_singleton, if_neg (hne q hq)]
        exact h1 q (mem_cons_of_mem _ hq))
      (fun q hq hge => by
        simp only [toFinset_cons, toFinset_nil, Finset.union_insert, Finset.union_empty, Finset.mem_insert,
          not_or]
        exact ⟨hne q hq, hF q (mem_cons_of_mem _ hq) hge⟩)
      hp.first (by rw [hp.avail, length_singleton]; omega)
    refine ⟨?_, ?_, ?_, hl.failed.trans hp.failed, hl.first⟩
    · have hset : F ∪ [p].toFinset ∪ l.toFinset = F ∪ (p :: l).toFinset := by
        rw [Finset.union_assoc, ← toFinset_append, singleton_append]
      exact hset ▸ hl.holds
    · rw [hl.ref, hp.ref]
      funext q
      by_cases hqp : q = p <;> simp [hqp]
    · rw [hl.avail, hp.avail]
      simp only [length_cons, length_nil]
      omega

/-- The pages whose bits `BITMAP_CREATE_ONE` leaves clear. -/
def unset : Finset Nat := (Finset.range BITMAP_PAGES).filter fun p => 64 ≤ p

theorem mem_unset : p ∈ unset ↔ 64 ≤ p ∧ p < BITMAP_PAGES := by
  rw [unset, Finset.mem_filter, Finset.mem_range, and_comm]

/-- The state once the descriptors `l` are loaded. -/
structure Loaded (map : MemoryMap) (pagesPfn : Nat) (l : List EFI_MEMORY_DESCRIPTOR) (s : State) : Prop where
  holds : Holds s (unset ∪ (map.freed pagesPfn l).toFinset)
  zero : ∀ p ∈ map.freed pagesPfn l, s.ref p = 0
  nodup : (map.freed pagesPfn l).Nodup
  avail : s.avail = (map.freed pagesPfn l).length
  refs : ∀ p, s.ref p ≤ UINT16_MAX
  sound : s.failed = false
  first : s.bitmap.firstZeroIdx = 0

section Load
variable {map : MemoryMap} {pagesPfn : Nat}

open MemoryMap

theorem initial_loaded {ref : Nat → Nat} (href : ∀ p, ref p ≤ UINT16_MAX) (memory : Nat → page_stack_t) :
    Loaded map pagesPfn [] (initial ref memory) := by
  refine ⟨⟨⟨[], ⟨rfl, rfl⟩, nodup_nil, fun p => ?_⟩, rfl, fun p hp => ?_⟩, nofun, nodup_nil, rfl, href, rfl, rfl⟩
  · rw [freed, flatMap_nil, toFinset_nil, Finset.union_empty, mem_unset]
    simp only [not_mem_nil, false_iff]
    omega
  · rw [freed, flatMap_nil, toFinset_nil, Finset.union_empty, mem_unset, initial, bit_create_one,
      decide_eq_false_iff_not]
    omega

/-- The part of a descriptor that is loaded, without wrapping. -/
theorem loadDescriptor_eq (ha : map.HasArray pagesPfn arr) (hd : desc ∈ map.descriptors) (s : State) :
    loadDescriptor map.highest pagesPfn s desc =
      if pmm_is_mem_avail desc.type then
        (map.loaded pagesPfn desc).foldl pmm_free_unlocked
          ((map.loaded pagesPfn desc).foldl (fun s p => s.setRef p 1) s)
      else (map.loaded pagesPfn desc).foldl (fun s p => s.setRef p UINT16_MAX) s := by
  have hb := map.bounded desc hd
  unfold loadDescriptor loaded
  by_cases heq : desc.start = pagesPfn
  · have hroom : arrayPages map.highest ≤ desc.NumberOfPages := ha.eq_of_start hd heq ▸ ha.room
    have hpfn : (desc.start + arrayPages map.highest) % 2 ^ 64 = desc.start + arrayPages map.highest :=
      Nat.mod_eq_of_lt (by omega)
    have hamount : (desc.NumberOfPages + 2 ^ 64 - arrayPages map.highest) % 2 ^ 64 =
        desc.NumberOfPages - arrayPages map.highest := by omega
    simp only [if_pos heq, hpfn, hamount, pmm_free_region_unlocked, region_eq (by omega :
      desc.start + arrayPages map.highest + (desc.NumberOfPages - arrayPages map.highest) ≤ 2 ^ 64)]
  · simp only [if_neg heq, pmm_free_region_unlocked, Nat.add_zero, Nat.sub_zero,
      region_eq (by omega : desc.start + desc.NumberOfPages ≤ 2 ^ 64)]

theorem length_freed_le (hl : ∀ desc ∈ l, desc ∈ map.descriptors)
    (hnd : (map.freed pagesPfn l).Nodup) : (map.freed pagesPfn l).length ≤ 2 ^ 52 := by
  have hsub : (map.freed pagesPfn l).toFinset ⊆ Finset.range (2 ^ 52) := by
    intro p hp
    obtain ⟨desc, hd, -, hlt⟩ := covers_of_freed (List.mem_toFinset.1 hp)
    exact Finset.mem_range.2 (Nat.lt_of_lt_of_le hlt (map.bounded desc (hl desc hd)))
  have := Finset.card_le_card hsub
  rwa [toFinset_card_of_nodup hnd, Finset.card_range] at this

theorem loadDescriptor_loaded {rest : List EFI_MEMORY_DESCRIPTOR}
    (ha : map.HasArray pagesPfn arr) (hl : l ++ desc :: rest = map.descriptors) (h : Loaded map pagesPfn l s) :
    Loaded map pagesPfn (l ++ [desc]) (loadDescriptor map.highest pagesPfn s desc) := by
  have hd : desc ∈ map.descriptors := hl ▸ by simp
  have hmem : ∀ e ∈ l, e ∈ map.descriptors := fun e he => hl ▸ mem_append_left _ he
  have hmem' : ∀ e ∈ l ++ [desc], e ∈ map.descriptors := by
    intro e he
    rcases mem_append.1 he with he | he
    · exact hmem e he
    · exact mem_singleton.1 he ▸ hd
  have hnew : ∀ p ∈ map.loaded pagesPfn desc, p ∉ map.freed pagesPfn l := by
    intro p hp hp'
    obtain ⟨e, he, hcov⟩ := covers_of_freed hp'
    have hapart := (pairwise_append.1 (hl ▸ map.disjoint)).2.2 e he desc mem_cons_self
    have hcov' := covers_of_loaded hp
    unfold EFI_MEMORY_DESCRIPTOR.Covers at hcov hcov'
    unfold EFI_MEMORY_DESCRIPTOR.Apart at hapart
    omega
  have hnd : (map.loaded pagesPfn desc).Nodup := nodup_range'
  rw [loadDescriptor_eq ha hd, foldl_setRef, foldl_setRef]
  by_cases hav : pmm_is_mem_avail desc.type = true
  · have hfreed : map.freed pagesPfn (l ++ [desc]) = map.freed pagesPfn l ++ map.loaded pagesPfn desc := by
      simp [freed, hav]
    have hnodup : (map.freed pagesPfn (l ++ [desc])).Nodup := by
      rw [hfreed]
      exact nodup_append.2 ⟨h.nodup, hnd, fun a ha b hb he => hnew b hb (he ▸ ha)⟩
    have hlen := length_freed_le hmem' hnodup
    rw [hfreed, length_append] at hlen
    rw [if_pos hav]
    have hall := foldl_free_last
      (s := { s with ref := fun p => if p ∈ map.loaded pagesPfn desc then 1 else s.ref p })
      (h.holds.congr rfl rfl rfl rfl) hnd (fun p hp => if_pos hp)
      (fun p hp hge hm => by
        rcases Finset.mem_union.1 hm with hm | hm
        · exact absurd (mem_unset.1 hm).2 (Nat.not_lt.2 hge)
        · exact hnew p hp (List.mem_toFinset.1 hm)) h.first (by rw [h.avail]; omega)
    refine ⟨?_, fun p hp => ?_, hnodup, ?_, fun p => ?_, hall.failed.trans h.sound, hall.first⟩
    · rw [hfreed, toFinset_append, ← Finset.union_assoc]
      exact hall.holds
    · rw [hall.ref]
      simp only
      split
      · rfl
      · rename_i hnot
        rw [hfreed] at hp
        exact h.zero p ((mem_append.1 hp).resolve_right hnot)
    · rw [hall.avail, h.avail, hfreed, length_append]
    · rw [hall.ref]
      simp only
      split
      · exact Nat.zero_le _
      · exact h.refs p
  · have hfreed : map.freed pagesPfn (l ++ [desc]) = map.freed pagesPfn l := by
      simp [freed, hav]
    rw [if_neg hav]
    refine ⟨?_, fun p hp => ?_, hfreed ▸ h.nodup, ?_, fun p => ?_, h.sound, h.first⟩
    · rw [hfreed]
      exact h.holds.congr rfl rfl rfl rfl
    · rw [hfreed] at hp
      simp only
      rw [if_neg fun hm => hnew p hm hp]
      exact h.zero p hp
    · rw [hfreed]
      exact h.avail
    · simp only
      split
      · exact Nat.le_refl _
      · exact h.refs p

theorem foldl_loaded (ha : map.HasArray pagesPfn arr)
    {rest : List EFI_MEMORY_DESCRIPTOR} (hl : l ++ rest = map.descriptors) (h : Loaded map pagesPfn l s) :
    Loaded map pagesPfn map.descriptors (rest.foldl (loadDescriptor map.highest pagesPfn) s) := by
  induction rest generalizing l s with
  | nil =>
    rw [append_nil] at hl
    exact hl ▸ h
  | cons desc rest ih =>
    exact ih (by rw [← hl, append_assoc, singleton_append]) (loadDescriptor_loaded ha hl h)

theorem init_loaded {ref : Nat → Nat} (href : ∀ p, ref p ≤ UINT16_MAX) {memory : Nat → page_stack_t}
    (h : pmm_init map.descriptors (initial ref memory) = some (pagesPfn, s)) :
    (∃ arr, map.HasArray pagesPfn arr) ∧ Loaded map pagesPfn map.descriptors s := by
  obtain ⟨pagesPfn', hrefs, heq⟩ := map_eq_some_iff.1 h
  obtain ⟨rfl, rfl⟩ := Prod.mk.inj heq
  obtain ⟨arr, ha, -⟩ := hasArray_of_init_refs hrefs
  exact ⟨⟨arr, ha⟩, foldl_loaded ha (nil_append _) (initial_loaded href memory)⟩

theorem loaded_accounted (ha : map.HasArray pagesPfn arr)
    (h : Loaded map pagesPfn map.descriptors s) (hlow : ∀ p, 64 ≤ p → p < BITMAP_PAGES → map.Usable pagesPfn p) :
    Accounted (map.managed pagesPfn) s := by
  have hfreed : (map.freed pagesPfn map.descriptors).toFinset = (map.managed pagesPfn).pages := by
    ext p
    rw [List.mem_toFinset, mem_freed ha, mem_managed]
  have hfree : freePages (map.managed pagesPfn) s = (map.freed pagesPfn map.descriptors).toFinset := by
    rw [freePages, ← hfreed]
    exact Finset.filter_true_of_mem fun p hp => h.zero p (List.mem_toFinset.1 hp)
  refine ⟨?_, ?_, h.refs, h.sound⟩
  · have hunion : unset ∪ (map.freed pagesPfn map.descriptors).toFinset =
        (map.freed pagesPfn map.descriptors).toFinset := by
      refine Finset.union_eq_right.2 fun p hp => ?_
      rw [hfreed, mem_managed]
      exact hlow p (mem_unset.1 hp).1 (mem_unset.1 hp).2
    rw [hfree, ← hunion]
    exact h.holds
  · rw [hfree, h.avail, toFinset_card_of_nodup h.nodup]

/-! ## What can be handed out -/

/-- The allocators return usable pages only. -/
def ReturnsUsable (map : MemoryMap) (pagesPfn : Nat) (s : State) : Action → Prop
  | .alloc a => ∀ l s', a.exec s = some (some l, s') → ∀ p ∈ l, map.Usable pagesPfn p
  | _ => True

theorem returnsUsable_of_accounted {a : Action} (h : Accounted (map.managed pagesPfn) s) (hin : InRange s a) :
    ReturnsUsable map pagesPfn s a := by
  cases a with
  | alloc a =>
    intro l s' he p hp
    obtain ⟨-, -, hl⟩ := (exec_accounted h hin he).2
    exact mem_managed.1 (mem_freePages.1 (hl p hp)).1
  | free | freePages | freeRegion | refInc | write => trivial

/-- A request for the low page `p` alone returns page 0 or `p`. -/
theorem exec_at (hlen : s.bitmap.length = BITMAP_PAGES) (h0 : s.bitmap.firstZeroIdx = 0)
    (hp : 0 < p) (hlt : p < BITMAP_PAGES) (hclear : s.bitmap.bit p = false) :
    ∃ s', s'.bitmap = (if s.bitmap.bit 0 = false then bitmap_set_range s.bitmap 0 1
        else bitmap_set_range s.bitmap p (p + 1)) ∧
      (Alloc.allocBitmap 1 (p + 1) p).exec s = some (some [if s.bitmap.bit 0 = false then 0 else p], s') := by
  have hpages := BITMAP_PAGES_eq
  have halign : max p 1 = p := Nat.max_eq_left hp
  have hmax : min (p + 1) BITMAP_PAGES = p + 1 := Nat.min_eq_left hlt
  have hcall : ∀ map index, bitmap_find_clear_region_and_set s.bitmap 0 (p + 1) 1 p = some (map, index) →
      index < BITMAP_PAGES →
        ∃ s', s'.bitmap = map ∧ (Alloc.allocBitmap 1 (p + 1) p).exec s = some (some [index], s') := by
    intro map index hr hi
    have herr : index ≠ ERR := by
      rw [ERR]
      omega
    have hregion : region index 1 = [index] := region_eq (by omega)
    refine ⟨{ claim { s with bitmap := map } index with avail := (s.avail + 2 ^ 64 - 1) % 2 ^ 64 }, rfl, ?_⟩
    simp only [Alloc.exec, pmm_alloc_bitmap, pmm_bitmap_set, halign, hmax, hr, map_some, pfnOf,
      if_neg (show index ≠ s.bitmap.length by omega), if_neg herr, hregion]
    rfl
  have hfind := find_clear_region_at h0 hp (hlen ▸ hlt) (by omega) hclear
  by_cases hbit : s.bitmap.bit 0 = false
  · rw [if_pos hbit] at hfind
    rw [if_pos hbit, if_pos hbit]
    exact hcall _ _ hfind (by omega)
  · rw [if_neg hbit] at hfind
    rw [if_neg hbit, if_neg hbit]
    exact hcall _ _ hfind hlt

/-- After booting, no assert fails and every page an allocator returns is
usable, for every run whose requests to the bitmap fit, exactly if every page
whose bit `BITMAP_CREATE_ONE` leaves clear is usable. -/
theorem returnsUsable_iff {ref : Nat → Nat} (href : ∀ p, ref p ≤ UINT16_MAX) {memory : Nat → page_stack_t} {s : State}
    (hinit : pmm_init map.descriptors (initial ref memory) = some (pagesPfn, s)) :
    (∀ as, Along (step (map.managed pagesPfn)) InRange s as →
        Always (step (map.managed pagesPfn)) (fun s => s.failed = false) s as ∧
          Along (step (map.managed pagesPfn)) (ReturnsUsable map pagesPfn) s as) ↔
      ∀ p, 64 ≤ p → p < BITMAP_PAGES → map.Usable pagesPfn p := by
  obtain ⟨⟨arr, ha⟩, hloaded⟩ := init_loaded href hinit
  constructor
  · intro h p hge hlt
    have hpages := BITMAP_PAGES_eq
    have hlen := hloaded.holds.length
    have hclear : s.bitmap.bit p = false :=
      (hloaded.holds.bits p hlt).2 (Finset.mem_union_left _ (mem_unset.2 ⟨hge, hlt⟩))
    have hfit : (Alloc.allocBitmap 1 (p + 1) p).Fits := by
      simp only [Alloc.Fits]
      omega
    obtain ⟨h1, h2⟩ := (h [.alloc (.allocBitmap 1 (p + 1) p), .alloc (.allocBitmap 1 (p + 1) p)]
      ⟨hfit, fun _ _ => ⟨hfit, fun _ _ => trivial⟩⟩).2
    obtain ⟨s1, hmap, hexec⟩ := exec_at hlen hloaded.first (by omega) hlt hclear
    by_cases hbit : s.bitmap.bit 0 = false
    · -- The first call takes page 0, the second one `p`.
      rw [if_pos hbit] at hmap hexec
      have hstep : step (map.managed pagesPfn) s (.alloc (.allocBitmap 1 (p + 1) p)) = some s1 := by
        simp only [step, hexec, map_some]
      have hbits : ∀ q, s1.bitmap.bit q = (decide (q = 0) || s.bitmap.bit q) := by
        intro q
        rw [hmap, bit_set_range, inRange, hlen]
        congr 1
        rw [decide_eq_decide]
        omega
      have hzero : s1.bitmap.bit 0 ≠ false := by
        rw [hbits 0]
        simp
      have hclear1 : s1.bitmap.bit p = false := by
        rw [hbits p, hclear, decide_eq_false (by omega : ¬p = 0)]
        rfl
      obtain ⟨s2, -, hexec2⟩ := exec_at (s := s1) (by rw [hmap, length_set_range, hlen])
        (by rw [hmap, firstZeroIdx_set_range, hloaded.first]) (by omega) hlt hclear1
      rw [if_neg hzero] at hexec2
      exact (h2 s1 hstep).1 _ _ hexec2 p (mem_singleton_self p)
    · rw [if_neg hbit] at hexec
      exact h1 _ _ hexec p (mem_singleton_self p)
  · intro hlow as hin
    have hacc := loaded_accounted ha hloaded hlow
    exact ⟨(hin.always (fun _ _ _ => step_accounted) hacc).mono fun _ h => h.sound,
      hin.along (fun _ _ _ => step_accounted) (fun _ _ => returnsUsable_of_accounted) hacc⟩

end Load

/-- Conventional memory up to the end of the bitmap. -/
def lowMemory : MemoryMap where
  descriptors := [{ type := .EfiConventionalMemory, start := 0, NumberOfPages := 16384 }]
  nonempty := by decide
  bounded := by decide
  disjoint := pairwise_singleton _ _

def noMemory : Nat → page_stack_t := fun _ => { next := none, pages := fun _ => 0 }

theorem lowMemory_init : ∃ s, pmm_init lowMemory.descriptors (initial (fun _ => 0) noMemory) = some (0, s) := by
  have hrefs : pmm_init_refs lowMemory.descriptors (pmm_detect_memory lowMemory.descriptors) = some 0 := by decide
  rw [pmm_init]
  exact ⟨_, congrArg (Option.map _) hrefs⟩

theorem lowMemory_returnsUsable :
    ∃ s, pmm_init lowMemory.descriptors (initial (fun _ => 0) noMemory) = some (0, s) ∧
      ∀ as, Along (step (lowMemory.managed 0)) InRange s as →
        Always (step (lowMemory.managed 0)) (fun s => s.failed = false) s as ∧
          Along (step (lowMemory.managed 0)) (ReturnsUsable lowMemory 0) s as := by
  obtain ⟨s, hs⟩ := lowMemory_init
  refine ⟨s, hs, (returnsUsable_iff (fun _ => Nat.zero_le _) hs).2 fun p hge hlt => ⟨⟨_, .head _, rfl, ?_⟩, ?_⟩⟩
  · exact ⟨Nat.zero_le p, hlt⟩
  · have harray : arrayPages lowMemory.highest = 8 := by decide
    rw [harray]
    omega

/-- Two pages of conventional memory, one for the array, and a reserved page. -/
def reservedPage : MemoryMap where
  descriptors :=
    [{ type := .EfiConventionalMemory, start := 0, NumberOfPages := 2 },
      { type := .EfiReservedMemoryType, start := 64, NumberOfPages := 1 }]
  nonempty := by decide
  bounded := by decide
  disjoint := pairwise_pair.2 (.inl (by decide))

/-- The second `pmm_alloc` returns the reserved page, and its assert fails. -/
theorem reservedPage_allocated :
    ∃ s s₁ s₂, pmm_init reservedPage.descriptors (initial (fun _ => 0) noMemory) = some (0, s) ∧
      pmm_alloc s = some (some 1, s₁) ∧ pmm_alloc s₁ = some (some 64, s₂) ∧ ¬ reservedPage.Usable 0 64 ∧
      s₂.failed = true := by
  have hrun : ∃ r ∈ pmm_init reservedPage.descriptors (initial (fun _ => 0) noMemory), ∃ r₁ ∈ pmm_alloc r.2,
      ∃ r₂ ∈ pmm_alloc r₁.2, r.1 = 0 ∧ r₁.1 = some 1 ∧ r₂.1 = some 64 ∧ r₂.2.failed = true := by
    decide +kernel
  obtain ⟨⟨_, s⟩, hinit, ⟨_, s₁⟩, h1, ⟨_, s₂⟩, h2, rfl, rfl, rfl, hfailed⟩ := hrun
  exact ⟨s, s₁, s₂, hinit, h1, h2, by decide, hfailed⟩

end Patchwork.Pmm
