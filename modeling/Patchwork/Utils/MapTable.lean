import Patchwork.Utils.MapFind
/-!
# The invariant of the table

`Table` is what every operation of `map.c` keeps: the table is probed, its keys
are made with the hash function, the entries in it know their place, and the two
counters count. `Holds` is the finite partial map that such a table stands for.
-/

namespace Patchwork.Map

open Function Lib

variable {E : Type} {hash : List UInt8 → Nat} {h : Heap E}

structure Table (hash : List UInt8 → Nat) (h : Heap E) : Prop where
  pow2 : h.map.capacity = 0 ∨ IsPow2 h.map.capacity
  bound : h.map.capacity ≤ 2 ^ 44
  probed : Probed h.map.capacity h.map.entries (keyOf h.entry) hash
  keyed : Keyed hash h.map h.entry
  placed : ∀ p < h.map.capacity, ∀ e, h.map.entries p = .full e → (h.entry e).index = some p
  /-- An entry that is in no slot can have an index too. -/
  index : ∀ e p, (h.entry e).index = some p → p < h.map.capacity ∧ (h.entry e).map = true
  length : h.map.length = count Slot.isFull h.map.capacity h.map.entries
  tombstones : h.map.tombstones = count Slot.isDeleted h.map.capacity h.map.entries

theorem Table.of_empty (hpow2 : h.map.capacity = 0 ∨ IsPow2 h.map.capacity) (hbound : h.map.capacity ≤ 2 ^ 44)
    (hempty : ∀ p < h.map.capacity, h.map.entries p = .empty)
    (hindex : ∀ e p, (h.entry e).index = some p → p < h.map.capacity ∧ (h.entry e).map = true)
    (hlength : h.map.length = 0) (htombstones : h.map.tombstones = 0) : Table hash h := by
  have hnone : ∀ p < h.map.capacity, ∀ e, h.map.entries p ≠ .full e := by
    intro p hp e he
    rw [hempty p hp] at he
    cases he
  exact
    { pow2 := hpow2
      bound := hbound
      probed := probed_of_none hnone
      keyed := fun p hp e he => absurd he (hnone p hp e)
      placed := fun p hp e he => absurd he (hnone p hp e)
      index := hindex
      length := hlength.trans (count_eq_zero fun p hp => by rw [hempty p hp]; rfl).symm
      tombstones := htombstones.trans (count_eq_zero fun p hp => by rw [hempty p hp]; rfl).symm }

/-- The entry is in the table under the key. -/
def Holds (h : Heap E) (k : List UInt8) (e : E) : Prop :=
  ∃ p < h.map.capacity, h.map.entries p = .full e ∧ keyOf h.entry e = k

def Absent (h : Heap E) (k : List UInt8) : Prop :=
  ∀ p < h.map.capacity, ∀ e, h.map.entries p = .full e → keyOf h.entry e ≠ k

variable {k : List UInt8}

theorem absent_iff : Absent h k ↔ ∀ e, ¬ Holds h k e := by
  constructor
  · rintro ha e ⟨p, hp, he, hk⟩
    exact ha p hp e he hk
  · intro hn p hp e he hk
    exact hn e ⟨p, hp, he, hk⟩

variable {p : Nat} {e : E}

namespace Table

variable (ht : Table hash h)
include ht

theorem isPow2 (hp : p < h.map.capacity) : IsPow2 h.map.capacity :=
  ht.pow2.resolve_left (Nat.ne_zero_of_lt hp)

theorem key_eq (hp : p < h.map.capacity) (he : h.map.entries p = .full e) (k : List UInt8) :
    map_key_is_equal (h.entry e).key (map_key_buffer hash k) = true ↔ keyOf h.entry e = k := by
  rw [ht.keyed p hp e he]
  exact key_is_equal_iff hash _ k

theorem length_le : h.map.length ≤ h.map.capacity := by
  rw [ht.length]
  exact count_le _ _ _

theorem tombstones_le : h.map.tombstones ≤ h.map.capacity := by
  rw [ht.tombstones]
  exact count_le _ _ _

/-! ## Searches -/

/-- A search for a key in the table comes to its entry. -/
theorem find_present (hp : p < h.map.capacity) (he : h.map.entries p = .full e) (forInsertion : Bool) :
    map_find_slot h.map h.entry (map_key_buffer hash (keyOf h.entry e)) forInsertion = some p := by
  have ho := outcome_find_slot (k := keyOf h.entry e) (ht.isPow2 hp) ht.keyed forInsertion
  revert ho
  generalize map_find_slot h.map h.entry (map_key_buffer hash (keyOf h.entry e)) forInsertion = r
  intro ho
  cases ho with
  | found j e' hj he' hk =>
    exact congrArg some (ht.probed.unique _ (probe_lt (Nat.zero_lt_of_lt hp)) p hp e' e he' he hk)
  | empty j hj hempty hpass => exact absurd rfl (ht.probed.absent_of_empty hj hpass hempty p hp e he)
  | deleted j i hj hi hins hend hdel hpass =>
    rcases hend with rfl | hempty
    · exact absurd rfl (absent_of_all hpass p hp e he)
    · rcases hj.lt_or_eq with hj | rfl
      · exact absurd rfl (ht.probed.absent_of_empty hj hpass hempty p hp e he)
      · exact absurd rfl (absent_of_all hpass p hp e he)
  | none hdel hpass => exact absurd rfl (absent_of_all hpass p hp e he)

theorem find_lt {forInsertion : Bool}
    (hf : map_find_slot h.map h.entry (map_key_buffer hash k) forInsertion = some p) : p < h.map.capacity := by
  rcases ht.pow2 with hzero | hpow
  · rw [map_find_slot, hzero, findLoop, ite_self] at hf
    cases hf
  · have hpos : 0 < h.map.capacity := by
      obtain ⟨j, hj⟩ := hpow
      rw [hj]
      exact Nat.two_pow_pos j
    have ho := outcome_find_slot (k := k) hpow ht.keyed forInsertion
    rw [hf] at ho
    cases ho <;> exact probe_lt hpos

/-- In a table that is not full, a search for insertion comes to a free slot. -/
theorem find_insertion (habs : Absent h k) (hfree : h.map.length < h.map.capacity) :
    ∃ p < h.map.capacity, map_find_slot h.map h.entry (map_key_buffer hash k) true = some p ∧
      (∀ e, h.map.entries p ≠ .full e) ∧ Reached h.map.capacity h.map.entries (hash k) p := by
  have hpos : 0 < h.map.capacity := Nat.zero_lt_of_lt hfree
  have ho := outcome_find_slot (k := k) (ht.isPow2 hpos) ht.keyed true
  revert ho
  generalize map_find_slot h.map h.entry (map_key_buffer hash k) true = r
  intro ho
  cases ho with
  | found j e hj he hk => exact absurd hk (habs _ (probe_lt hpos) e he)
  | empty j hj he hpass =>
    refine ⟨_, probe_lt hpos, rfl, fun e he' => ?_, j, hj, rfl, fun i hi => (hpass i hi).1⟩
    cases he.symm.trans he'
  | deleted j i hj hi hins hend he hpass =>
    refine ⟨_, probe_lt hpos, rfl, fun e he' => ?_, i, by omega, rfl, fun i' hi' => (hpass i' (by omega)).1⟩
    cases he.symm.trans he'
  | none hdel hpass =>
    -- Every slot would be full.
    have hall : count Slot.isFull h.map.capacity h.map.entries = h.map.capacity := by
      apply count_eq_cap
      intro p hp
      obtain ⟨i, hi, rfl⟩ := probe_surjective (hash k) hp
      cases hs : h.map.entries (probe h.map.capacity (hash k) i) with
      | empty => exact absurd hs (hpass i hi).1
      | deleted => exact absurd hs (hdel rfl i hi)
      | full e => rfl
    rw [ht.length, hall] at hfree
    exact absurd hfree (lt_irrefl _)

theorem lookup_eq_some :
    lookup h (map_key_buffer hash k) = some (p, e) ↔
      p < h.map.capacity ∧ h.map.entries p = .full e ∧ keyOf h.entry e = k := by
  constructor
  · intro hl
    unfold lookup at hl
    split at hl
    · cases hl
    · rename_i index hf
      have hp := ht.find_lt hf
      split at hl
      · rename_i e' he
        split_ifs at hl with hk
        cases hl
        exact ⟨hp, he, (ht.key_eq hp he k).1 hk⟩
      · cases hl
  · rintro ⟨hp, he, rfl⟩
    rw [lookup, ht.find_present hp he]
    simp only [he]
    rw [if_pos ((ht.key_eq hp he _).2 rfl)]

theorem lookup_eq_none : lookup h (map_key_buffer hash k) = none ↔ Absent h k := by
  rw [Option.eq_none_iff_forall_ne_some]
  constructor
  · intro hn p hp e he hk
    exact hn (p, e) (ht.lookup_eq_some.2 ⟨hp, he, hk⟩)
  · rintro ha ⟨p, e⟩ hl
    obtain ⟨hp, he, hk⟩ := ht.lookup_eq_some.1 hl
    exact ha p hp e he hk

theorem get_eq_some : map_get h (map_key_buffer hash k) = some e ↔ Holds h k e := by
  rw [map_get, Option.map_eq_some_iff]
  constructor
  · rintro ⟨⟨p, e'⟩, hl, rfl⟩
    exact ⟨p, ht.lookup_eq_some.1 hl⟩
  · rintro ⟨p, hp⟩
    exact ⟨(p, e), ht.lookup_eq_some.2 hp, rfl⟩

end Table

/-! ## Storing an entry -/

section Store
variable [DecidableEq E]

def Heap.counted (h : Heap E) (length tombstones : Nat) : Heap E :=
  { h with map := { h.map with length := length, tombstones := tombstones } }

theorem keyOf_store : keyOf (h.store (map_key_buffer hash k) p e).entry = update (keyOf h.entry) e k := by
  funext e'
  by_cases he : e' = e
  · simp [keyOf, Heap.store, he, map_key_buffer]
  · simp [keyOf, Heap.store, he]

/-- What a slot must be for an entry to be stored in it under `k`. -/
structure Storable (hash : List UInt8 → Nat) (h : Heap E) (k : List UInt8) (e : E) (p : Nat) : Prop where
  lt : p < h.map.capacity
  reached : Reached h.map.capacity h.map.entries (hash k) p
  /-- The slot may have an entry under the same key. -/
  key : ∀ b, h.map.entries p = .full b → keyOf h.entry b = k
  others : ∀ q < h.map.capacity, ∀ b, h.map.entries q = .full b → q ≠ p → keyOf h.entry b ≠ k
  unused : ∀ q < h.map.capacity, h.map.entries q ≠ .full e

variable {k : List UInt8} {e : E} {p length tombstones : Nat}

theorem Table.store (ht : Table hash h) (hs : Storable hash h k e p)
    (hlen : length + (h.map.entries p).isFull.toNat = h.map.length + 1)
    (htomb : tombstones + (h.map.entries p).isDeleted.toNat = h.map.tombstones) :
    Table hash ((h.store (map_key_buffer hash k) p e).counted length tombstones) := by
  have hkey : ∀ q < h.map.capacity, ∀ b, h.map.entries q = .full b →
      update (keyOf h.entry) e k b = keyOf h.entry b := by
    intro q hq b hb
    rw [update_of_ne]
    rintro rfl
    exact hs.unused q hq hb
  have hprobed := ht.probed.congr hkey
  have hfull : count Slot.isFull h.map.capacity (update h.map.entries p (.full e)) +
      (h.map.entries p).isFull.toNat = h.map.length + 1 := by
    rw [count_update _ _ hs.lt, ht.length]
    rfl
  have hdel : count Slot.isDeleted h.map.capacity (update h.map.entries p (.full e)) +
      (h.map.entries p).isDeleted.toNat = h.map.tombstones := by
    rw [count_update _ _ hs.lt, ht.tombstones]
    rfl
  refine
    { pow2 := ht.pow2
      bound := ht.bound
      probed := ?_
      keyed := ?_
      placed := ?_
      index := ?_
      length := ?_
      tombstones := ?_ }
  · show Probed _ _ (keyOf (h.store (map_key_buffer hash k) p e).entry) hash
    rw [keyOf_store]
    apply hprobed.insert
    · rw [update_self]
      exact hs.reached
    · intro q hq b hb hqp
      rw [hkey q hq b hb, update_self]
      exact hs.others q hq b hb hqp
  · intro q hq b hb
    rcases update_full_iff.1 hb with ⟨rfl, rfl⟩ | ⟨-, hb⟩
    · simp [Heap.counted, Heap.store, keyOf, map_key_buffer]
    · have hne : b ≠ e := fun hbe => hs.unused q hq (hbe ▸ hb)
      simp only [Heap.counted, Heap.store, keyOf, update_of_ne hne]
      exact ht.keyed q hq b hb
  · intro q hq b hb
    rcases update_full_iff.1 hb with ⟨rfl, rfl⟩ | ⟨-, hb⟩
    · simp [Heap.counted, Heap.store]
    · have hne : b ≠ e := fun hbe => hs.unused q hq (hbe ▸ hb)
      simp only [Heap.counted, Heap.store, update_of_ne hne]
      exact ht.placed q hq b hb
  · intro b q hq
    by_cases hbe : b = e
    · simp only [Heap.counted, Heap.store, hbe, update_self, Option.some.injEq] at hq ⊢
      exact ⟨hq ▸ hs.lt, trivial⟩
    · simp only [Heap.counted, Heap.store, update_of_ne hbe] at hq ⊢
      exact ht.index b q hq
  · exact Nat.add_right_cancel (hlen.trans hfull.symm)
  · exact Nat.add_right_cancel (htomb.trans hdel.symm)

theorem holds_store (hs : Storable hash h k e p) (k' : List UInt8) (e' : E) :
    Holds ((h.store (map_key_buffer hash k) p e).counted length tombstones) k' e' ↔
      k' = k ∧ e' = e ∨ k' ≠ k ∧ Holds h k' e' := by
  have hkey : keyOf ((h.store (map_key_buffer hash k) p e).counted length tombstones).entry =
    update (keyOf h.entry) e k := keyOf_store
  constructor
  · rintro ⟨q, hq, hb, rfl⟩
    rw [hkey]
    rcases update_full_iff.1 hb with ⟨rfl, rfl⟩ | ⟨hqp, hb⟩
    · exact .inl ⟨update_self .., rfl⟩
    · have hne : e' ≠ e := fun he => hs.unused q hq (he ▸ hb)
      rw [update_of_ne hne]
      exact .inr ⟨hs.others q hq e' hb hqp, q, hq, hb, rfl⟩
  · rintro (⟨rfl, rfl⟩ | ⟨hk, q, hq, hb, rfl⟩)
    · refine ⟨p, hs.lt, update_self .., ?_⟩
      rw [hkey, update_self]
    · have hqp : q ≠ p := by
        rintro rfl
        exact hk (hs.key e' hb)
      have hne : e' ≠ e := fun he => hs.unused q hq (he ▸ hb)
      refine ⟨q, hq, update_full_iff.2 (.inr ⟨hqp, hb⟩), ?_⟩
      rw [hkey, update_of_ne hne]

end Store

/-! ## Taking an entry out -/

section Remove
variable [DecidableEq E] {e : E} {p : Nat}

/-- The table with a tombstone in the slot of an entry. -/
def Heap.removed (h : Heap E) (p : Nat) (e : E) : Heap E where
  map :=
    { h.map with
      entries := update h.map.entries p .deleted
      length := h.map.length - 1
      tombstones := h.map.tombstones + 1 }
  entry := update h.entry e { h.entry e with index := none, map := false }

theorem keyOf_removed : keyOf (h.removed p e).entry = keyOf h.entry := by
  funext e'
  by_cases he : e' = e
  · simp [keyOf, Heap.removed, he]
  · simp [keyOf, Heap.removed, he]

theorem entry_removed_of_ne {b : E} (hb : b ≠ e) : (h.removed p e).entry b = h.entry b :=
  update_of_ne hb _ _

theorem Table.removed (ht : Table hash h) (hp : p < h.map.capacity) (he : h.map.entries p = .full e) :
    Table hash (h.removed p e) := by
  have hne : ∀ q < h.map.capacity, ∀ b, q ≠ p → h.map.entries q = .full b → b ≠ e := by
    rintro q hq b hqp hb rfl
    have := (ht.placed q hq b hb).symm.trans (ht.placed p hp b he)
    exact hqp (Option.some.inj this)
  have hfull : count Slot.isFull h.map.capacity (update h.map.entries p .deleted) + 1 = h.map.length := by
    have := count_update Slot.isFull h.map.entries hp .deleted
    rwa [he, ← ht.length] at this
  have hdel : count Slot.isDeleted h.map.capacity (update h.map.entries p .deleted) =
      h.map.tombstones + 1 := by
    have := count_update Slot.isDeleted h.map.entries hp .deleted
    rwa [he, ← ht.tombstones] at this
  refine
    { pow2 := ht.pow2
      bound := ht.bound
      probed := ?_
      keyed := ?_
      placed := ?_
      index := ?_
      length := ?_
      tombstones := ?_ }
  · rw [keyOf_removed]
    exact ht.probed.delete p
  · intro q hq b hb
    obtain ⟨hqp, hb⟩ := update_deleted_iff.1 hb
    rw [keyOf_removed, entry_removed_of_ne (hne q hq b hqp hb)]
    exact ht.keyed q hq b hb
  · intro q hq b hb
    obtain ⟨hqp, hb⟩ := update_deleted_iff.1 hb
    rw [entry_removed_of_ne (hne q hq b hqp hb)]
    exact ht.placed q hq b hb
  · intro b q hq
    by_cases hbe : b = e
    · simp [Heap.removed, hbe] at hq
    · rw [entry_removed_of_ne hbe] at hq ⊢
      exact ht.index b q hq
  · exact Nat.sub_eq_of_eq_add hfull.symm
  · exact hdel.symm

theorem Table.holds_removed (ht : Table hash h) (hp : p < h.map.capacity) (he : h.map.entries p = .full e)
    (k : List UInt8) (e' : E) : Holds (h.removed p e) k e' ↔ k ≠ keyOf h.entry e ∧ Holds h k e' := by
  constructor
  · rintro ⟨q, hq, hb, rfl⟩
    obtain ⟨hqp, hb⟩ := update_deleted_iff.1 hb
    rw [keyOf_removed]
    exact ⟨fun hk => hqp (ht.probed.unique q hq p hp e' e hb he hk), q, hq, hb, rfl⟩
  · rintro ⟨hk, q, hq, hb, rfl⟩
    have hqp : q ≠ p := by
      rintro rfl
      exact hk (congrArg _ (Slot.full.inj (hb.symm.trans he)))
    exact ⟨q, hq, update_deleted_iff.2 ⟨hqp, hb⟩, congrFun keyOf_removed e'⟩

end Remove

/-! ## Clearing the table -/

section Clear
variable [DecidableEq E]

theorem clearSlot_entry {i : Nat} (hp : ((clearSlot h i).entry e).index = some p) :
    (clearSlot h i).entry e = h.entry e := by
  simp only [clearSlot] at hp ⊢
  cases hs : h.map.entries i with
  | full e' =>
    simp only [hs] at hp ⊢
    by_cases he : e = e'
    · simp [he] at hp
    · exact update_of_ne he _ _
  | _ => simp only

theorem foldl_clearSlot (is : List Nat) (h : Heap E) :
    (is.foldl clearSlot h).map.capacity = h.map.capacity ∧
      (∀ q, (is.foldl clearSlot h).map.entries q = if q ∈ is then .empty else h.map.entries q) ∧
      ∀ e p, ((is.foldl clearSlot h).entry e).index = some p → (is.foldl clearSlot h).entry e = h.entry e := by
  induction is generalizing h with
  | nil => exact ⟨rfl, fun q => (if_neg (List.not_mem_nil)).symm, fun _ _ _ => rfl⟩
  | cons i is ih =>
    obtain ⟨hcap, hent, hidx⟩ := ih (clearSlot h i)
    refine ⟨hcap, fun q => ?_, fun e p hp => ?_⟩
    · rw [List.foldl_cons, hent]
      by_cases hq : q ∈ is
      · rw [if_pos hq, if_pos (List.mem_cons_of_mem i hq)]
      · by_cases hqi : q = i
        · simp [hqi, clearSlot]
        · simp [hq, hqi, clearSlot]
    · rw [List.foldl_cons] at hp ⊢
      have hsame := hidx e p hp
      rw [hsame] at hp ⊢
      exact clearSlot_entry hp

theorem clear_entries (hp : p < h.map.capacity) : (map_clear h).map.entries p = .empty := by
  have := (foldl_clearSlot (List.range h.map.capacity) h).2.1 p
  rwa [if_pos (List.mem_range.2 hp)] at this

theorem clear_capacity (h : Heap E) : (map_clear h).map.capacity = h.map.capacity :=
  (foldl_clearSlot (List.range h.map.capacity) h).1

theorem Table.clear (ht : Table hash h) : Table hash (map_clear h) := by
  have hcap := clear_capacity h
  refine .of_empty (hcap ▸ ht.pow2) (hcap ▸ ht.bound) (fun p hp => clear_entries (hcap ▸ hp)) (fun e p hp => ?_) rfl rfl
  have hsame : (map_clear h).entry e = h.entry e := (foldl_clearSlot (List.range h.map.capacity) h).2.2 e p hp
  rw [hcap, hsame]
  rw [hsame] at hp
  exact ht.index e p hp

theorem holds_clear (k : List UInt8) (e : E) : ¬ Holds (map_clear h) k e := by
  rintro ⟨p, hp, he, -⟩
  rw [clear_entries (clear_capacity h ▸ hp)] at he
  cases he

end Clear

/-! ## The size -/

/-- The key at a position; at one without an entry it does not matter. -/
def keyAt (h : Heap E) (p : Nat) : List UInt8 :=
  match h.map.entries p with
  | .full e => keyOf h.entry e
  | _ => []

theorem Table.keys_eq (ht : Table hash h) :
    ∃ keys : Finset (List UInt8), (∀ k, k ∈ keys ↔ ∃ e, Holds h k e) ∧ keys.card = map_size h.map := by
  classical
  have hkeyAt : ∀ p e, h.map.entries p = .full e → keyAt h p = keyOf h.entry e := by
    intro p e he
    simp only [keyAt, he]
  have hfull : ∀ p, (h.map.entries p).isFull = true → ∃ e, h.map.entries p = .full e := by
    intro p hp
    cases hs : h.map.entries p with
    | full e => exact ⟨e, rfl⟩
    | _ => rw [hs] at hp; cases hp
  refine ⟨((Finset.range h.map.capacity).filter fun p => (h.map.entries p).isFull = true).image (keyAt h), ?_, ?_⟩
  · intro k
    simp only [Finset.mem_image, Finset.mem_filter, Finset.mem_range]
    constructor
    · rintro ⟨p, ⟨hp, hf⟩, rfl⟩
      obtain ⟨e, he⟩ := hfull p hf
      exact ⟨e, p, hp, he, (hkeyAt p e he).symm⟩
    · rintro ⟨e, p, hp, he, rfl⟩
      exact ⟨p, ⟨hp, by rw [he]; rfl⟩, hkeyAt p e he⟩
  · rw [Finset.card_image_of_injOn, map_size, ht.length, count]
    intro p hp q hq hpq
    simp only [Finset.mem_coe, Finset.mem_filter, Finset.mem_range] at hp hq
    obtain ⟨e, he⟩ := hfull p hp.2
    obtain ⟨e', he'⟩ := hfull q hq.2
    rw [hkeyAt p e he, hkeyAt q e' he'] at hpq
    exact ht.probed.unique p hp.1 q hq.1 e e' he he' hpq

end Patchwork.Map
