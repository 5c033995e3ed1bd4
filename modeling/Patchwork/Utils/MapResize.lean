import Patchwork.Utils.MapTable
/-!
# Resizing

`map_resize` moves the entries to a larger table, and never fails after the
allocation: the new table has more slots than the old one has entries. A map does
not get smaller, because `map_resize` returns at once for a smaller capacity. After
a resize check that succeeds, there is a slot that is not full.
-/

namespace Patchwork.Map

open List Lib

variable {E : Type} {hash : List UInt8 → Nat} {h h' : Heap E}

/-! ## Capacities -/

variable {n : Nat} {calloc : Bool}

theorem is_pow2_iff (hn : n < 2 ^ 64) : IS_POW2 n = true ↔ n = 0 ∨ IsPow2 n := by
  rw [IS_POW2, decide_eq_true_iff]
  rcases Nat.eq_zero_or_pos n with rfl | hpos
  · simp
  · rw [show (n + 2 ^ 64 - 1) % 2 ^ 64 = n - 1 by omega]
    constructor
    · exact fun h => .inr (isPow2_of_land_pred hpos h)
    · rintro (h | h)
      · exact absurd h hpos.ne'
      · rw [land_pred h, Nat.mod_self]

/-- The capacity that `map_resize` makes of the one it is given. -/
def roundCapacity (n : Nat) : Nat := if IS_POW2 n then n else next_pow2 n

theorem roundCapacity_pow2 (hn : n < 2 ^ 64) : roundCapacity n = 0 ∨ IsPow2 (roundCapacity n) := by
  unfold roundCapacity
  split_ifs with h
  · exact (is_pow2_iff hn).1 h
  · exact .inr (isPow2_next_pow2 hn)

theorem roundCapacity_of_pow2 (hn : n < 2 ^ 64) (h : IsPow2 n) : roundCapacity n = n :=
  if_pos ((is_pow2_iff hn).2 (.inr h))

/-- The capacity that a resize check asks for. -/
def wantedCapacity (map : map_t E) : Nat :=
  if map.capacity = 0 then MAP_MIN_CAPACITY else map.capacity * 2

theorem wantedCapacity_spec (ht : Table hash h) :
    wantedCapacity h.map < 2 ^ 64 ∧ roundCapacity (wantedCapacity h.map) = wantedCapacity h.map ∧
      h.map.capacity < wantedCapacity h.map := by
  have hb := ht.bound
  have hlt : wantedCapacity h.map < 2 ^ 64 := by
    unfold wantedCapacity MAP_MIN_CAPACITY
    split_ifs <;> omega
  refine ⟨hlt, roundCapacity_of_pow2 hlt ?_, ?_⟩ <;> unfold wantedCapacity MAP_MIN_CAPACITY
  · split_ifs with hz
    · exact ⟨4, rfl⟩
    · obtain ⟨j, hj⟩ := ht.pow2.resolve_left hz
      exact ⟨j + 1, by rw [hj, Nat.pow_succ]⟩
  · split_ifs <;> omega

/-- A resize check asks for a table. -/
def Loaded (map : map_t E) : Prop := MAP_MAX_LOAD_PERCENTAGE * map.capacity ≤ (map.length + map.tombstones) * 100

instance (map : map_t E) : Decidable (Loaded map) := inferInstanceAs (Decidable (_ ≤ _))

/-- The table is kept, or a loaded one is replaced by a larger one without tombstones. -/
def Grown (h h' : Heap E) : Prop :=
  h'.map.capacity = h.map.capacity ∧ h'.map.tombstones ≤ h.map.tombstones ∨
    Loaded h.map ∧ h'.map.capacity = wantedCapacity h.map ∧ h'.map.tombstones = 0

theorem Grown.refl : Grown h h := .inl ⟨rfl, le_rfl⟩

/-! ## The new table -/

/-- The entries of some slots can be moved to a table that has none of their keys. -/
structure Movable (hash : List UInt8 → Nat) (old : Nat → Slot E) (is : List Nat) (h : Heap E) : Prop where
  keyed : ∀ i ∈ is, ∀ e, old i = .full e → (h.entry e).key = map_key_buffer hash (keyOf h.entry e)
  absent : ∀ i ∈ is, ∀ e, old i = .full e → Absent h (keyOf h.entry e)
  distinct : is.Pairwise fun i j => ∀ e e', old i = .full e → old j = .full e' → keyOf h.entry e ≠ keyOf h.entry e'
  clean : ∀ p < h.map.capacity, h.map.entries p ≠ .deleted
  room : h.map.length + is.length < h.map.capacity

/-- The table of a resize, before anything is moved to it. -/
def Heap.fresh (h : Heap E) (newCapacity : Nat) : Heap E :=
  { h with map := { entries := fun _ => .empty, capacity := newCapacity, length := 0, tombstones := 0 } }

theorem Table.fresh (ht : Table hash h) (hpow : IsPow2 n) (hbound : n ≤ 2 ^ 44) (hn : h.map.capacity < n) :
    Table hash (h.fresh n) :=
  .of_empty (.inr hpow) hbound (fun _ _ => rfl) (fun e p hp => (ht.index e p hp).imp_left hn.trans') rfl rfl

theorem Table.movable (ht : Table hash h) (hn : h.map.capacity < n) :
    Movable hash h.map.entries (List.range h.map.capacity) (h.fresh n) where
  keyed i hi e he := ht.keyed i (mem_range.1 hi) e he
  absent _ _ _ _ := fun _ _ _ he => nomatch he
  distinct := by
    refine List.Pairwise.imp_of_mem ?_ (nodup_range (n := h.map.capacity))
    intro i j hi hj hij e e' he he' hk
    exact hij (ht.probed.unique i (mem_range.1 hi) j (mem_range.1 hj) e e' he he' hk)
  clean _ _ := nofun
  room := by
    rw [length_range]
    show 0 + h.map.capacity < n
    omega

/-- What a successful resize is: the same map in a table that is not smaller. -/
structure Resized (hash : List UInt8 → Nat) (h h' : Heap E) : Prop where
  table : Table hash h'
  holds : ∀ k e, Holds h' k e ↔ Holds h k e
  capacity : h.map.capacity ≤ h'.map.capacity

theorem Resized.refl (ht : Table hash h) : Resized hash h h := ⟨ht, fun _ _ => Iff.rfl, le_rfl⟩

/-! ## The loop over the old table -/

theorem Movable.skip {old : Nat → Slot E} {is : List Nat} {i : Nat} (hm : Movable hash old (i :: is) h) :
    Movable hash old is h where
  keyed j hj := hm.keyed j (mem_cons_of_mem i hj)
  absent j hj := hm.absent j (mem_cons_of_mem i hj)
  distinct := (pairwise_cons.1 hm.distinct).2
  clean := hm.clean
  room := by
    have := hm.room
    simp only [length_cons] at this
    omega

variable [DecidableEq E]

/-- A turn that finds its slot. -/
def Heap.moved (h : Heap E) (e : E) (p : Nat) : Heap E :=
  (h.store (h.entry e).key p e).counted (h.map.length + 1) h.map.tombstones

open Map.Heap

theorem keyOf_moved (e e' : E) (p : Nat) : keyOf (h.moved e p).entry e' = keyOf h.entry e' := by
  by_cases he : e' = e
  · simp [keyOf, moved, counted, store, he]
  · simp [keyOf, moved, counted, store, he]

theorem key_moved (e e' : E) (p : Nat) : ((h.moved e p).entry e').key = (h.entry e').key := by
  by_cases he : e' = e
  · simp [moved, counted, store, he]
  · simp [moved, counted, store, he]

section Rehash
variable {old : Nat → Slot E} {is : List Nat} {i : Nat} {e : E}

/-- A turn with an entry finds a slot, and the table stays one. -/
theorem Movable.move (hm : Movable hash old (i :: is) h) (ht : Table hash h) (he : old i = .full e) :
    ∃ p, map_find_slot h.map h.entry (h.entry e).key true = some p ∧ Table hash (h.moved e p) ∧
      Movable hash old is (h.moved e p) ∧
      ∀ k e', Holds (h.moved e p) k e' ↔ Holds h k e' ∨ keyOf h.entry e' = k ∧ e' = e := by
  have hkey := hm.keyed i mem_cons_self e he
  have habs := hm.absent i mem_cons_self e he
  have hroom := hm.room
  rw [length_cons] at hroom
  obtain ⟨p, hp, hf, hfree, hr⟩ := ht.find_insertion habs (by omega)
  rw [← hkey] at hf
  have hs : Storable hash h (keyOf h.entry e) e p :=
    { lt := hp
      reached := hr
      key := fun b hb => absurd hb (hfree b)
      others := fun q hq b hb _ => habs q hq b hb
      unused := fun q hq hb => habs q hq e hb rfl }
  have hnotFull : (h.map.entries p).isFull = false := by
    cases hsp : h.map.entries p with
    | full b => exact absurd hsp (hfree b)
    | _ => rfl
  have hnotDeleted : (h.map.entries p).isDeleted = false := by
    cases hsp : h.map.entries p with
    | deleted => exact absurd hsp (hm.clean p hp)
    | _ => rfl
  have hholds : ∀ k e', Holds (h.moved e p) k e' ↔ Holds h k e' ∨ keyOf h.entry e' = k ∧ e' = e := by
    intro k e'
    rw [moved, hkey, holds_store hs]
    constructor
    · rintro (⟨rfl, rfl⟩ | ⟨-, hh⟩)
      · exact .inr ⟨rfl, rfl⟩
      · exact .inl hh
    · rintro (hh | ⟨rfl, rfl⟩)
      · refine .inr ⟨?_, hh⟩
        rintro rfl
        exact absent_iff.1 habs e' hh
      · exact .inl ⟨rfl, rfl⟩
  refine ⟨p, hf, ?_, ?_, hholds⟩
  · rw [moved, hkey]
    exact ht.store hs (by rw [hnotFull]; rfl) (by rw [hnotDeleted]; rfl)
  · refine
      { keyed := fun j hj e' he' => ?_
        absent := fun j hj e' he' => ?_
        distinct := ?_
        clean := fun q hq hd => ?_
        room := ?_ }
    · rw [key_moved, keyOf_moved]
      exact hm.keyed j (mem_cons_of_mem i hj) e' he'
    · rw [keyOf_moved, absent_iff]
      rintro b hb
      rcases (hholds _ _).1 hb with hb | ⟨hk, rfl⟩
      · exact absent_iff.1 (hm.absent j (mem_cons_of_mem i hj) e' he') b hb
      · exact (pairwise_cons.1 hm.distinct).1 j hj b e' he he' hk
    · simp only [keyOf_moved]
      exact (pairwise_cons.1 hm.distinct).2
    · by_cases hqp : q = p
      · simp [moved, counted, store, hqp] at hd
      · simp only [moved, counted, store, Function.update_of_ne hqp] at hd
        exact hm.clean q hq hd
    · show h.map.length + 1 + is.length < h.map.capacity
      omega

/-- The loop does not stop with an error, and moves every entry. -/
theorem rehash_spec (ht : Table hash h) (hm : Movable hash old is h) :
    ∃ h', rehash old is h = .ok h' ∧ Table hash h' ∧ h'.map.capacity = h.map.capacity ∧
      h'.map.tombstones = h.map.tombstones ∧ h'.map.length ≤ h.map.length + is.length ∧
      ∀ k e, Holds h' k e ↔ Holds h k e ∨ keyOf h.entry e = k ∧ ∃ i ∈ is, old i = .full e := by
  induction is generalizing h with
  | nil => exact ⟨h, rfl, ht, rfl, rfl, le_rfl, fun k e => by simp⟩
  | cons i is ih =>
    cases hold : old i with
    | full e =>
      obtain ⟨p, hf, ht', hm', hholds⟩ := hm.move ht hold
      obtain ⟨h', hr, ht', hcap, htomb, hlen, hall⟩ := ih ht' hm'
      refine ⟨h', ?_, ht', hcap, htomb, ?_, fun k e' => ?_⟩
      · simp only [rehash, hold, hf]
        exact hr
      · have : (h.moved e p).map.length = h.map.length + 1 := rfl
        rw [length_cons]
        omega
      · rw [hall, hholds, keyOf_moved, or_assoc]
        simp only [mem_cons, exists_eq_or_imp, hold, Slot.full.injEq, and_or_left, eq_comm (a := e)]
    | _ =>
      obtain ⟨h', hr, ht', hcap, htomb, hlen, hall⟩ := ih ht hm.skip
      refine ⟨h', ?_, ht', hcap, htomb, ?_, fun k e' => ?_⟩
      · simp only [rehash, hold]
        exact hr
      · rw [length_cons]
        omega
      · rw [hall]
        simp [hold]

end Rehash

/-! ## Resizing -/

theorem resize_eq (n : Nat) (calloc : Bool) :
    map_resize h n calloc =
      if roundCapacity n ≤ h.map.capacity then (h, true)
      else if callocTable calloc (roundCapacity n) then
        match rehash h.map.entries (List.range h.map.capacity) (h.fresh (roundCapacity n)) with
        | .ok h' => (h', true)
        | .error h' => ({ h' with map := h.map }, false)
      else (h, false) := rfl

theorem resize_of_le (hn : roundCapacity n ≤ h.map.capacity) : map_resize h n calloc = (h, true) := if_pos hn

theorem resize_refused (hn : h.map.capacity < roundCapacity n)
    (hc : callocTable calloc (roundCapacity n) = false) : map_resize h n calloc = (h, false) := by
  rw [resize_eq, if_neg (Nat.not_le_of_lt hn), hc]
  rfl

theorem resize_granted (ht : Table hash h) (hn64 : n < 2 ^ 64)
    (hn : h.map.capacity < roundCapacity n) (hc : callocTable calloc (roundCapacity n) = true) :
    ∃ h', map_resize h n calloc = (h', true) ∧ Resized hash h h' ∧ h'.map.length < h'.map.capacity ∧
      h'.map.capacity = roundCapacity n ∧ h'.map.tombstones = 0 := by
  have hpow : IsPow2 (roundCapacity n) := (roundCapacity_pow2 hn64).resolve_left (Nat.ne_zero_of_lt hn)
  have hbound : roundCapacity n ≤ 2 ^ 44 := by
    simp only [callocTable, Bool.and_eq_true, decide_eq_true_iff] at hc
    omega
  obtain ⟨h', hr, ht', hcap, htomb, hlen, hall⟩ := rehash_spec (ht.fresh hpow hbound hn) (ht.movable hn)
  rw [length_range] at hlen
  have hcap' : h'.map.capacity = roundCapacity n := hcap
  have hlen' : h'.map.length ≤ 0 + h.map.capacity := hlen
  refine ⟨h', ?_, ⟨ht', fun k e => ?_, by omega⟩, by omega, hcap', htomb⟩
  · rw [resize_eq, if_neg (Nat.not_le_of_lt hn), hc, if_pos rfl, hr]
  · rw [hall]
    constructor
    · rintro (⟨_, _, he, -⟩ | ⟨hk, i, hi, he⟩)
      · cases he
      · exact ⟨i, mem_range.1 hi, he, hk⟩
    · rintro ⟨i, hi, he, hk⟩
      exact .inr ⟨hk, i, mem_range.2 hi, he⟩

/-- The resize is done exactly if it asks for no table or gets one. -/
theorem resize_spec (ht : Table hash h) (hn64 : n < 2 ^ 64) (calloc : Bool) :
    (h.map.capacity < roundCapacity n ∧ callocTable calloc (roundCapacity n) = false ∧
        map_resize h n calloc = (h, false)) ∨
      ∃ h', map_resize h n calloc = (h', true) ∧ Resized hash h h' := by
  rcases Nat.lt_or_ge h.map.capacity (roundCapacity n) with hn | hn
  · cases hc : callocTable calloc (roundCapacity n) with
    | false => exact .inl ⟨hn, rfl, resize_refused hn hc⟩
    | true =>
      obtain ⟨h', hr, hres, -⟩ := resize_granted ht hn64 hn hc
      exact .inr ⟨h', hr, hres⟩
  · exact .inr ⟨h, resize_of_le hn, .refl ht⟩

/-! ## The check before an insertion -/

theorem resize_check_eq (ht : Table hash h) (calloc : Bool) :
    map_resize_check h calloc =
      if Loaded h.map then map_resize h (wantedCapacity h.map) calloc else (h, true) := by
  have hb := ht.bound
  have hl := ht.length_le
  have hd := ht.tombstones_le
  unfold map_resize_check Loaded wantedCapacity
  simp only [MAP_MAX_LOAD_PERCENTAGE, ge_iff_le]
  rw [Nat.mod_eq_of_lt (show (h.map.length + h.map.tombstones) * 100 < 2 ^ 64 by omega),
    Nat.mod_eq_of_lt (show 75 * h.map.capacity < 2 ^ 64 by omega),
    Nat.mod_eq_of_lt (show h.map.capacity * 2 < 2 ^ 64 by omega)]
  rfl

/-- The check fails exactly if it asks for a table and does not get one. -/
def CheckFails (map : map_t E) (calloc : Bool) : Prop :=
  Loaded map ∧ callocTable calloc (wantedCapacity map) = false

instance (map : map_t E) (calloc : Bool) : Decidable (CheckFails map calloc) :=
  inferInstanceAs (Decidable (_ ∧ _))

theorem resize_check_fails (ht : Table hash h) (hf : CheckFails h.map calloc) : map_resize_check h calloc = (h, false) := by
  obtain ⟨-, hround, hlt⟩ := wantedCapacity_spec ht
  rw [resize_check_eq ht, if_pos hf.1]
  exact resize_refused (hround.symm ▸ hlt) (hround.symm ▸ hf.2)

/-- After a check that succeeds, not every slot is full. -/
theorem resize_check_succeeds (ht : Table hash h) (hf : ¬ CheckFails h.map calloc) :
    ∃ h', map_resize_check h calloc = (h', true) ∧ Resized hash h h' ∧ h'.map.length < h'.map.capacity ∧
      Grown h h' := by
  obtain ⟨h64, hround, hlt⟩ := wantedCapacity_spec ht
  rw [resize_check_eq ht]
  by_cases hl : Loaded h.map
  · have hc : callocTable calloc (wantedCapacity h.map) = true := by
      rw [← Bool.not_eq_false]
      exact fun hc => hf ⟨hl, hc⟩
    rw [if_pos hl]
    obtain ⟨h', hr, hres, hroom, hcap, htomb⟩ := resize_granted ht h64 (hround.symm ▸ hlt) (hround.symm ▸ hc)
    exact ⟨h', hr, hres, hroom, .inr ⟨hl, hcap.trans hround, htomb⟩⟩
  · rw [if_neg hl]
    refine ⟨h, rfl, .refl ht, ?_, .refl⟩
    simp only [Loaded, MAP_MAX_LOAD_PERCENTAGE] at hl
    omega

/-! ## Removal does not resize -/

/-- The capacity that a removal asks for is not larger. -/
theorem halved_le (hpow : IsPow2 n) (hbound : n ≤ 2 ^ 44) (hmin : MAP_MIN_CAPACITY < n) :
    roundCapacity (if n / 2 < MAP_MIN_CAPACITY then MAP_MIN_CAPACITY else n / 2) ≤ n := by
  split_ifs with h
  · rw [roundCapacity_of_pow2 (n := MAP_MIN_CAPACITY) (by decide) ⟨4, rfl⟩]
    exact hmin.le
  · obtain ⟨j, rfl⟩ := hpow
    obtain ⟨i, rfl⟩ : ∃ i, j = i + 1 := by
      apply Nat.exists_eq_succ_of_ne_zero
      rintro rfl
      exact absurd hmin (by decide)
    have hhalf : 2 ^ (i + 1) / 2 = 2 ^ i := by
      rw [Nat.pow_succ]
      omega
    rw [roundCapacity_of_pow2 (by omega) ⟨i, hhalf⟩]
    exact Nat.div_le_self _ _

theorem remove_index_eq (ht : Table hash h) {p : Nat} {e : E} (hp : p < h.map.capacity)
    (he : h.map.entries p = .full e) (calloc : Bool) : map_remove_index h p calloc = h.removed p e := by
  unfold map_remove_index
  simp only [he]
  split
  · rename_i hshrink
    rw [resize_of_le]
    · rfl
    · exact halved_le (ht.isPow2 hp) ht.bound hshrink.1
  · rfl

end Patchwork.Map
