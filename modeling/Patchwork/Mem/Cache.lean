import Patchwork.Lib.Runs
/-!
# The slab cache

`cache.c` over any set of CPUs and of slab addresses. A step is one section under
`slab->lock` or `cache->lock`. `cache_alloc` runs with interrupts disabled, so a CPU is
inside at most one call of it; a `cache_free` belongs to no CPU, and between its two
sections it is in `pending` with what it saw in the first.

`amount` is `cache->layout.amount`, which the first allocation computes. The objects of
a slab are its indices, and `live` holds those that are handed out.
-/

namespace Patchwork.Cache

open List Function

variable {C A : Type} [DecidableEq C] [DecidableEq A]

def CACHE_LIMIT : Nat := 16
def CACHE_BUFCTL_END : BitVec 16 := 0

/-! ## Slabs -/

/-- `owner` is `none` for `CPU_ID_INVALID`. -/
structure cache_slab_t (C : Type) where
  owner : Option C
  freeCount : BitVec 16
  firstFree : BitVec 16
  bufctl : Nat → BitVec 16

def cache_slab_new (amount : Nat) : cache_slab_t C where
  owner := none
  freeCount := BitVec.ofNat 16 amount
  firstFree := 0
  bufctl i := if i < amount - 1 then BitVec.ofNat 16 (i + 1) else CACHE_BUFCTL_END

/-- The index of the object, and the slab without it. -/
def cache_slab_alloc (slab : cache_slab_t C) : Option (Nat × cache_slab_t C) :=
  if slab.freeCount = 0 then none
  else
    some (slab.firstFree.toNat,
      { slab with firstFree := slab.bufctl slab.firstFree.toNat, freeCount := slab.freeCount - 1 })

def cache_slab_free (slab : cache_slab_t C) (index : Nat) : cache_slab_t C :=
  { slab with
    bufctl := update slab.bufctl index slab.firstFree
    firstFree := BitVec.ofNat 16 index
    freeCount := slab.freeCount + 1 }

namespace cache_slab_t

/-- The indices on the slab's own free list. -/
def freeList (slab : cache_slab_t C) : List Nat :=
  List.iterate (fun i => (slab.bufctl i).toNat) slab.firstFree.toNat slab.freeCount.toNat

/-- The free list holds the objects that are not handed out. -/
structure Ok (amount : Nat) (slab : cache_slab_t C) (live : Finset Nat) : Prop where
  nodup : slab.freeList.Nodup
  mem : ∀ i, i ∈ slab.freeList ↔ i < amount ∧ i ∉ live
  lt : ∀ i ∈ live, i < amount

end cache_slab_t

section Slabs
variable {amount : Nat} {slab slab' : cache_slab_t C} {live : Finset Nat} {i : Nat}

omit [DecidableEq C] in
theorem iterate_new (hfits : amount < 2 ^ 16) (n i : Nat) (h : i + n = amount) :
    List.iterate (fun i => ((cache_slab_new amount : cache_slab_t C).bufctl i).toNat) i n = List.range' i n := by
  induction n generalizing i with
  | zero => rfl
  | succ n ih =>
    rw [List.iterate, range'_succ]
    congr 1
    cases n with
    | zero => rfl
    | succ n =>
      have hlt : i < amount - 1 := by omega
      simp only [cache_slab_new, if_pos hlt, BitVec.toNat_ofNat] at ih ⊢
      rw [Nat.mod_eq_of_lt (by omega)]
      exact ih (i + 1) (by omega)

omit [DecidableEq C] in
theorem ok_new (hfits : amount < 2 ^ 16) : (cache_slab_new amount : cache_slab_t C).Ok amount ∅ := by
  have hlist : (cache_slab_new amount : cache_slab_t C).freeList = List.range' 0 amount := by
    rw [cache_slab_t.freeList, ← iterate_new (C := C) hfits amount 0 (by omega)]
    simp only [cache_slab_new, BitVec.toNat_ofNat, Nat.mod_eq_of_lt hfits]
    rfl
  refine ⟨?_, fun i => ?_, by simp⟩
  · rw [hlist]
    exact nodup_range'
  · rw [hlist]
    simp

namespace cache_slab_t.Ok

omit [DecidableEq C]

section
variable (h : slab.Ok amount live)
include h

theorem card : slab.freeCount.toNat + live.card = amount := by
  have hlength : slab.freeList.toFinset.card = slab.freeCount.toNat := by
    rw [toFinset_card_of_nodup h.nodup, freeList, length_iterate]
  have hsplit : slab.freeList.toFinset = Finset.range amount \ live := by
    ext i
    simp [h.mem i]
  have hsub : live ⊆ Finset.range amount := fun i hi => Finset.mem_range.2 (h.lt i hi)
  have hle := Finset.card_le_card hsub
  rw [← hlength, hsplit, Finset.card_sdiff_of_subset hsub]
  rw [Finset.card_range] at hle ⊢
  omega

theorem live_empty (hall : slab.freeCount.toNat = amount) : live = ∅ := by
  have := h.card
  exact Finset.card_eq_zero.1 (by omega)

theorem all_live (hnone : slab.freeCount = 0) (hi : i < amount) : i ∈ live := by
  by_contra hlive
  have := (h.mem i).2 ⟨hi, hlive⟩
  rw [freeList, hnone] at this
  cases this

theorem alloc (hs : cache_slab_alloc slab = some (i, slab')) :
    slab'.Ok amount (insert i live) ∧ slab'.owner = slab.owner := by
  unfold cache_slab_alloc at hs
  split_ifs at hs with hzero
  obtain ⟨rfl, rfl⟩ := Prod.mk.inj (Option.some.inj hs)
  have hcount : slab.freeCount.toNat = (slab.freeCount - 1).toNat + 1 := by
    have : slab.freeCount.toNat ≠ 0 := fun h => hzero (BitVec.toNat_inj.1 h)
    bv_omega
  have hlist : slab.freeList = slab.firstFree.toNat :: cache_slab_t.freeList
      { slab with firstFree := slab.bufctl slab.firstFree.toNat, freeCount := slab.freeCount - 1 } := by
    rw [freeList, hcount]
    rfl
  have hmem := h.mem
  have hnodup := h.nodup
  rw [hlist] at hmem hnodup
  obtain ⟨hnot, hnodup⟩ := nodup_cons.1 hnodup
  refine ⟨⟨hnodup, fun j => ?_, ?_⟩, rfl⟩
  · have hj := hmem j
    rw [mem_cons] at hj
    rw [Finset.mem_insert]
    constructor
    · intro hin
      have hne : j ≠ slab.firstFree.toNat := fun he => hnot (he ▸ hin)
      exact ⟨(hj.1 (.inr hin)).1, fun hor => hor.elim hne (hj.1 (.inr hin)).2⟩
    · rintro ⟨hlt, hor⟩
      exact (hj.2 ⟨hlt, fun hl => hor (.inr hl)⟩).resolve_left fun he => hor (.inl he)
  · intro j hj
    rcases Finset.mem_insert.1 hj with rfl | hj
    · exact ((hmem _).1 (by simp)).1
    · exact h.lt j hj

theorem free (hfits : amount < 2 ^ 16) (hi : i ∈ live) :
    (cache_slab_free slab i).Ok amount (live.erase i) ∧
      (cache_slab_free slab i).freeCount.toNat = slab.freeCount.toNat + 1 := by
  have hpos := Finset.card_pos.2 ⟨i, hi⟩
  have hcard := h.card
  have hcount : (slab.freeCount + 1).toNat = slab.freeCount.toNat + 1 := by
    have : slab.freeCount.toNat + 1 < 2 ^ 16 := by omega
    bv_omega
  have hnot : i ∉ slab.freeList := fun hin => ((h.mem i).1 hin).2 hi
  have hlt := h.lt i hi
  -- The walk from the old first index does not meet the one that changes.
  have hwalk : ∀ n j, i ∉ List.iterate (fun i => (slab.bufctl i).toNat) j n →
      List.iterate (fun j => (update slab.bufctl i slab.firstFree j).toNat) j n =
        List.iterate (fun i => (slab.bufctl i).toNat) j n := by
    intro n
    induction n with
    | zero => intros; rfl
    | succ n ih =>
      intro j hj
      rw [List.iterate, mem_cons, not_or] at hj
      rw [List.iterate, List.iterate, update_of_ne (Ne.symm hj.1), ih _ hj.2]
  have hlist : (cache_slab_free slab i).freeList = i :: slab.freeList := by
    have hindex : (BitVec.ofNat 16 i).toNat = i := by
      rw [BitVec.toNat_ofNat, Nat.mod_eq_of_lt (by omega)]
    simp only [freeList, cache_slab_free, hcount, hindex]
    rw [List.iterate, update_self, hwalk _ _ hnot]
  refine ⟨⟨?_, fun j => ?_, fun j hj => h.lt j (Finset.mem_of_mem_erase hj)⟩, hcount⟩
  · rw [hlist]
    exact nodup_cons.2 ⟨hnot, h.nodup⟩
  · rw [hlist, mem_cons, h.mem j, Finset.mem_erase]
    constructor
    · rintro (rfl | ⟨hj, hl⟩)
      · exact ⟨hlt, fun h => h.1 rfl⟩
      · exact ⟨hj, fun h => hl h.2⟩
    · rintro ⟨hj, hl⟩
      by_cases hji : j = i
      · exact .inl hji
      · exact .inr ⟨hj, fun h => hl ⟨hji, h⟩⟩

end

end cache_slab_t.Ok

end Slabs

/-! ## The cache -/

structure cache_t (C A : Type) where
  free : List A
  partials : List A
  full : List A
  freeCount : Nat
  /-- `cpus[id].active`. -/
  active : C → Option A

namespace cache_t

def slabs (cache : cache_t C A) : List A := cache.free ++ cache.partials ++ cache.full

/-- `list_remove(&slab->entry)`, from the list it is on. -/
def list_remove (cache : cache_t C A) (a : A) : cache_t C A :=
  { cache with free := cache.free.erase a, partials := cache.partials.erase a, full := cache.full.erase a }

/-- `list_remove`, which does nothing for a new slab, and `list_push_back`. -/
def toFree (cache : cache_t C A) (a : A) : cache_t C A :=
  { cache.list_remove a with free := (cache.list_remove a).free ++ [a] }

def toPartials (cache : cache_t C A) (a : A) : cache_t C A :=
  { cache.list_remove a with partials := (cache.list_remove a).partials ++ [a] }

def toFull (cache : cache_t C A) (a : A) : cache_t C A :=
  { cache.list_remove a with full := (cache.list_remove a).full ++ [a] }

end cache_t

/-- A `cache_free` between its sections. -/
structure Pending (A : Type) where
  slab : A
  wasFull : Bool
  isEmpty : Bool
deriving Repr, DecidableEq

/-- Where a CPU is in `cache_alloc`. -/
inductive Place (A : Type) where
  | outside
  /-- The active slab had no free object. -/
  | retry (active : A)
  /-- The slab was taken from a list under `cache->lock`, and its lock is next. -/
  | picked (slab : A)
  /-- The result, and whether `cache_slab_new` failed. -/
  | returned (object : Option (A × Nat)) (failed : Bool)
deriving Repr, DecidableEq

structure System (C A : Type) where
  cache : cache_t C A
  slab : A → cache_slab_t C
  live : A → Finset Nat
  place : C → Place A
  pending : List (Pending A)

def init : System C A where
  cache := { free := [], partials := [], full := [], freeCount := 0, active := fun _ => none }
  slab _ := cache_slab_new 0
  live _ := ∅
  place _ := .outside
  pending := []

def System.goto (s : System C A) (c : C) (p : Place A) : System C A :=
  { s with place := update s.place c p }

def System.setOwner (s : System C A) (a : A) (owner : Option C) : System C A :=
  { s with slab := update s.slab a { s.slab a with owner := owner } }

def System.setActive (s : System C A) (c : C) (active : Option A) : System C A :=
  { s with cache := { s.cache with active := update s.cache.active c active } }

/-! ## `cache_alloc` -/

/-- An object leaves the slab, and the call returns it. -/
def System.give (s : System C A) (c : C) (a : A) (i : Nat) (slab : cache_slab_t C) : System C A :=
  { s with
    slab := update s.slab a slab
    live := update s.live a (insert i (s.live a))
    place := update s.place c (.returned (some (a, i)) false) }

/-- `return cache_slab_alloc(slab)`. -/
def returnObject (s : System C A) (c : C) (a : A) : System C A :=
  match cache_slab_alloc (s.slab a) with
  | some (i, slab) => s.give c a i slab
  | none => s.goto c (.returned none false)

/-- The slab goes to the end of `partial` and becomes the active one of the CPU. -/
def claim (s : System C A) (c : C) (a : A) : System C A :=
  (({ s with cache := s.cache.toPartials a }.setOwner a (some c)).setActive c (some a)).goto c (.picked a)

/-- The active slab goes to the end of `full`. -/
def retire (s : System C A) (c : C) (a : A) : System C A :=
  { s with cache := s.cache.toFull a }.setOwner a none |>.setActive c none

/-- From the label on; `new` is what `cache_slab_new` would return. -/
def allocate (amount : Nat) (s : System C A) (c : C) (new : Option A) : Option (System C A) :=
  match s.cache.partials.find? fun a => (s.slab a).owner.isNone with
  | some a => some (claim s c a)
  | none =>
    match s.cache.free with
    | a :: _ => some (claim { s with cache := { s.cache with freeCount := s.cache.freeCount - 1 } } c a)
    | [] =>
      match new with
      | none => some (s.goto c (.returned none true))
      | some a =>
        if a ∈ s.cache.slabs then none
        else some (claim { s with slab := update s.slab a (cache_slab_new amount) } c a)

/-- The next section of a CPU's `cache_alloc`. -/
def cache_alloc (amount : Nat) (s : System C A) (c : C) (new : Option A) : Option (System C A) :=
  match s.place c with
  | .outside | .returned _ _ =>
    match s.cache.active c with
    | some active =>
      match cache_slab_alloc (s.slab active) with
      | some (i, slab) => some (s.give c active i slab)
      | none => some (s.goto c (.retry active))
    | none => allocate amount s c new
  | .retry active =>
    if (s.slab active).freeCount > 0 then some (returnObject s c active)
    else allocate amount (retire s c active) c new
  | .picked slab => some (returnObject s c slab)

/-! ## `cache_free` -/

/-- The section under the lock of the slab. -/
def cache_free (amount : Nat) (s : System C A) (a : A) (index : Nat) : System C A :=
  let slab := cache_slab_free (s.slab a) index
  let wasFull := decide ((s.slab a).freeCount = 0)
  let isEmpty := decide (slab.freeCount.toNat = amount)
  { s with
    slab := update s.slab a slab
    live := update s.live a ((s.live a).erase index)
    pending := if wasFull || isEmpty then s.pending ++ [⟨a, wasFull, isEmpty⟩] else s.pending }

/-- The loop that destroys slabs; a `NULL` from `list_pop_front` is no slab. -/
def destroyLoop (cache : cache_t C A) : (freeCount : Nat) → Option (cache_t C A)
  | 0 => some { cache with freeCount := 0 }
  | n + 1 =>
    if n + 1 > CACHE_LIMIT then
      match cache.free with
      | [] => none
      | a :: _ => destroyLoop (cache.list_remove a) n
    else some { cache with freeCount := n + 1 }

/-- The section under the lock of the cache. The slab must still be mapped. -/
def cache_free_lists (s : System C A) (p : Pending A) : Option (System C A) :=
  if p.slab ∈ s.cache.slabs then
    let cache := if p.wasFull then s.cache.toPartials p.slab else s.cache
    if p.isEmpty ∧ (s.slab p.slab).owner = none then
      (destroyLoop (cache.toFree p.slab) (cache.freeCount + 1)).map fun cache =>
        { s with cache := cache, pending := s.pending.erase p }
    else some { s with cache := cache, pending := s.pending.erase p }
  else none

/-! ## Runs -/

inductive Action (C A : Type) where
  | alloc (c : C) (new : Option A)
  | free (a : A) (index : Nat)
  | freeLists (p : Pending A)

def step (amount : Nat) (s : System C A) : Action C A → Option (System C A)
  | .alloc c new => cache_alloc amount s c new
  | .free a index => if index ∈ s.live a then some (cache_free amount s a index) else none
  | .freeLists p => if p ∈ s.pending then cache_free_lists s p else none

/-- A slab is unused if all its objects are free and it has no owner. -/
def Unused (s : System C A) (a : A) : Prop := s.live a = ∅ ∧ (s.slab a).owner = none

/-- The discipline of the lists. A slab that is on none was destroyed or never made. -/
structure Right (amount : Nat) (s : System C A) : Prop where
  freeCount : s.cache.freeCount = s.cache.free.length
  free : ∀ a ∈ s.cache.free, Unused s a
  destroyed : ∀ a ∉ s.cache.slabs, Unused s a
  full : ∀ a ∈ s.cache.full, (∀ i < amount, i ∈ s.live a) ∨ ∃ p ∈ s.pending, p.slab = a
  served : ∀ c failed, s.place c = .returned none failed → failed = true

/-- What a `cache_free` saw under the lock of the slab still holds under the lock of the
cache: the slab is in use, and if it has no owner then a slab that left the full ones
has a free object, and one that became empty is empty. -/
def Fresh (amount : Nat) (s : System C A) : Action C A → Prop
  | .freeLists p =>
    (p.slab ∈ s.cache.partials ∨ p.slab ∈ s.cache.full) ∧
      ((s.slab p.slab).owner = none → (p.wasFull = true → (s.slab p.slab).freeCount ≠ 0) ∧
        (p.isEmpty = true → (s.slab p.slab).freeCount.toNat = amount))
  | _ => True

instance (amount : Nat) (s : System C A) : ∀ a : Action C A, Decidable (Fresh amount s a)
  | .freeLists _ => inferInstanceAs (Decidable (_ ∧ (_ → _ ∧ _)))
  | .alloc _ _ | .free _ _ => inferInstanceAs (Decidable True)

end Patchwork.Cache
