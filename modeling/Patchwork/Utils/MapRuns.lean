import Patchwork.Lib.Runs
import Patchwork.Utils.MapResize
/-!
# The map along runs

A run is a sequence of calls on one map, each with the answer of `calloc`. Beside
the table goes the partial map from keys to entries that the calls are meant to
work on. A call behaves if it returns what the partial map returns, or `ENOMEM`
where `calloc` refused a table, and leaves a table that stands for the new partial
map.

Two calls can fail to. An entry that `map_replace` has thrown out keeps its index,
so `map_remove` of it takes out whatever is in its old slot. And `map_insert` asks
for a larger table before it looks for the key, so it can return `ENOMEM` for a key
that is in the map.
-/

namespace Patchwork.Map

open Option Function Lib

variable {E : Type} {hash : List UInt8 → Nat} {h h' : Heap E}

/-! ## Calls -/

section
variable [DecidableEq E]

inductive Op (E : Type) where
  | insert (key : List UInt8) (entry : Option E)
  | replace (key : List UInt8) (entry : Option E)
  | get (key : List UInt8)
  | getAndRemove (key : List UInt8)
  | remove (entry : Option E)
  | removeKey (key : List UInt8)
  | clear
  | reserve (minCapacity : UInt64)
deriving Repr, DecidableEq

structure Action (E : Type) where
  op : Op E
  calloc : Bool
deriving Repr, DecidableEq

inductive Ret (E : Type) where
  | status (s : status_t)
  | entry (e : Option E)
  | void
deriving Repr, DecidableEq

def InTable (h : Heap E) (e : E) : Prop := ∃ p < h.map.capacity, h.map.entries p = .full e

instance (h : Heap E) (e : E) : Decidable (InTable h e) := inferInstanceAs (Decidable (∃ p < _, _))

/-- An entry that is in the table is not given to it again. -/
def MayStore (h : Heap E) (entry : Option E) : Prop := ∀ e ∈ entry, ¬ InTable h e

instance (h : Heap E) (entry : Option E) : Decidable (MayStore h entry) :=
  inferInstanceAs (Decidable (∀ e ∈ entry, _))

/-- The result of a call and the memory after it. -/
def call (hash : List UInt8 → Nat) (h : Heap E) (a : Action E) : Option (Ret E × Heap E) :=
  match a.op with
  | .insert k e =>
    if MayStore h e then
      let r := map_insert h (map_key_buffer hash k) e a.calloc
      some (.status r.1, r.2)
    else none
  | .replace k e =>
    if MayStore h e then
      let r := map_replace h (map_key_buffer hash k) e a.calloc
      some (.status r.1, r.2)
    else none
  | .get k => some (.entry (map_get h (map_key_buffer hash k)), h)
  | .getAndRemove k =>
    let r := map_get_and_remove h (map_key_buffer hash k) a.calloc
    some (.entry r.1, r.2)
  | .remove e => (map_remove h e a.calloc).map fun h' => (.void, h')
  | .removeKey k => some (.void, map_remove_key h (map_key_buffer hash k) a.calloc)
  | .clear => some (.void, map_clear h)
  | .reserve n =>
    let r := map_reserve h n.toNat a.calloc
    some (.status r.1, r.2)

/-! ## The partial map -/

abbrev Model (E : Type) := List UInt8 → Option E

/-- What a call returns and does on the partial map. -/
def spec (m : Model E) : Op E → Ret E × Model E
  | .insert _ none => (.status .EINVAL, m)
  | .insert k (some e) =>
    if m k = none then (.status .ok, update m k (some e)) else (.status .EEXIST, m)
  | .replace _ none => (.status .EINVAL, m)
  | .replace k (some e) => (.status .ok, update m k (some e))
  | .get k => (.entry (m k), m)
  | .getAndRemove k => (.entry (m k), update m k none)
  | .remove none => (.void, m)
  | .remove (some e) => (.void, fun k => if m k = some e then none else m k)
  | .removeKey k => (.void, update m k none)
  | .clear => (.void, fun _ => none)
  | .reserve _ => (.status .ok, m)

structure System (E : Type) where
  heap : Heap E
  model : Model E

def init : System E where
  heap := { map := map_init, entry := fun _ => { key := { key := [], hash := 0 }, index := none, map := false } }
  model := fun _ => none

/-- A call without memory does nothing. -/
def next (m : Model E) (op : Op E) (ret : Ret E) : Model E :=
  if ret = .status .ENOMEM then m else (spec m op).2

def step (hash : List UInt8 → Nat) (s : System E) (a : Action E) : Option (System E) :=
  (call hash s.heap a).map fun r => { heap := r.2, model := next s.model a.op r.1 }

/-! ## What a call should do -/

/-- `calloc` has refused the table that the call asks for. `map_insert` of a key
that is there has no need of one. -/
def Refused (s : System E) (a : Action E) : Prop :=
  match a.op with
  | .insert k _ => CheckFails s.heap.map a.calloc ∧ s.model k = none
  | .replace _ _ => CheckFails s.heap.map a.calloc
  | .reserve n =>
    s.heap.map.capacity < roundCapacity (next_pow2 n.toNat) ∧
      callocTable a.calloc (roundCapacity (next_pow2 n.toNat)) = false
  | _ => False

structure Refines (hash : List UInt8 → Nat) (s : System E) : Prop where
  get : ∀ k, map_get s.heap (map_key_buffer hash k) = s.model k
  finite : {k | s.model k ≠ none}.Finite
  size : map_size s.heap.map = {k | s.model k ≠ none}.ncard
  single : ∀ p < s.heap.map.capacity, ∀ q < s.heap.map.capacity, ∀ e e', s.heap.map.entries p = .full e →
    s.heap.map.entries q = .full e' → keyOf s.heap.entry e = keyOf s.heap.entry e' → p = q

structure Behaves (hash : List UInt8 → Nat) (s : System E) (a : Action E) (ret : Ret E) (h' : Heap E) : Prop where
  returns : ret = (spec s.model a.op).1 ∨ ret = .status .ENOMEM ∧ Refused s a
  refines : Refines hash { heap := h', model := next s.model a.op ret }

/-- The call, if it can be made, behaves. -/
def Good (hash : List UInt8 → Nat) (s : System E) (a : Action E) : Prop :=
  ∀ ret h', call hash s.heap a = some (ret, h') → Behaves hash s a ret h'

/-- An entry is removed only while nothing else is in the slot of its index, and a
key that is there is not inserted when the table is full and `calloc` refuses. -/
def Careful (s : System E) (a : Action E) : Prop :=
  match a.op with
  | .remove (some e) =>
    ∀ i, (s.heap.entry e).index = some i → ∀ e', s.heap.map.entries i = .full e' → e' = e
  | .insert k (some e) => ¬ InTable s.heap e → s.model k ≠ none → ¬ CheckFails s.heap.map a.calloc
  | _ => True

end

/-! ## The invariant -/

structure Inv (hash : List UInt8 → Nat) (s : System E) : Prop where
  table : Table hash s.heap
  model : ∀ k e, s.model k = some e ↔ Holds s.heap k e

theorem inv_init : Inv hash (init : System E) where
  table := .of_empty (.inl rfl) (Nat.zero_le _) (fun _ _ => rfl) (fun _ _ hp => nomatch hp) rfl rfl
  model := by
    intro k e
    constructor
    · exact nofun
    · rintro ⟨p, hp, -⟩
      exact absurd hp (Nat.not_lt_zero p)

variable {s : System E} {m : Model E} {k : List UInt8} {e : E} {p : Nat} {a : Action E} {entry : Option E}

theorem Inv.model_none (hi : Inv hash s) : s.model k = none ↔ Absent s.heap k := by
  rw [absent_iff, eq_none_iff_forall_ne_some]
  exact forall_congr' fun e => not_congr (hi.model k e)

theorem Inv.refines (hi : Inv hash s) : Refines hash s := by
  obtain ⟨keys, hmem, hcard⟩ := hi.table.keys_eq
  have hkeys : {k | s.model k ≠ none} = ↑keys := by
    ext k
    rw [Finset.mem_coe, hmem]
    show s.model k ≠ none ↔ _
    rw [ne_none_iff_exists']
    exact exists_congr fun e => hi.model k e
  refine
    { get := fun k => ?_
      finite := hkeys ▸ keys.finite_toSet
      size := by rw [hkeys, Set.ncard_coe_finset, hcard]
      single := fun p hp q hq e e' => hi.table.probed.unique p hp q hq e e' }
  apply Option.ext
  intro e
  rw [hi.table.get_eq_some, hi.model]

/-- The map holds the entry at the key, and the other keys as before. -/
def Stored (h h' : Heap E) (k : List UInt8) (e : E) : Prop :=
  ∀ k' e', Holds h' k' e' ↔ k' = k ∧ e' = e ∨ k' ≠ k ∧ Holds h k' e'

/-- The partial map after an entry is stored. -/
theorem Inv.stored (hi : Inv hash s) (ht : Table hash h') (hh : Stored s.heap h' k e) :
    Inv hash { heap := h', model := update s.model k (some e) } := by
  refine ⟨ht, fun k' e' => ?_⟩
  rw [hh, ← hi.model]
  by_cases hk : k' = k
  · simp [hk, eq_comm]
  · simp [hk]

theorem update_none_of_absent (hk : m k = none) : update m k none = m := by
  rw [← hk]
  exact update_eq_self k m

theorem Inv.lookup (hi : Inv hash s) (k : List UInt8) :
    (lookup s.heap (map_key_buffer hash k) = none ∧ s.model k = none) ∨
      ∃ p e, lookup s.heap (map_key_buffer hash k) = some (p, e) ∧ p < s.heap.map.capacity ∧
        s.heap.map.entries p = .full e ∧ keyOf s.heap.entry e = k ∧ s.model k = some e := by
  cases hl : Map.lookup s.heap (map_key_buffer hash k) with
  | none => exact .inl ⟨rfl, hi.model_none.2 (hi.table.lookup_eq_none.1 hl)⟩
  | some r =>
    obtain ⟨p, e⟩ := r
    obtain ⟨hp, he, hk⟩ := hi.table.lookup_eq_some.1 hl
    exact .inr ⟨p, e, rfl, hp, he, hk, (hi.model k e).2 ⟨p, hp, he, hk⟩⟩

variable [DecidableEq E]

/-! ## Insertion -/

/-- The slot of an insertion is filled. -/
def Heap.put (h : Heap E) (key : map_key_t) (p : Nat) (e : E) : Heap E :=
  (h.store key p e).counted (h.map.length + 1 - (h.map.entries p).isFull.toNat)
    (h.map.tombstones - (h.map.entries p).isDeleted.toNat)

theorem Table.put (ht : Table hash h) (hs : Storable hash h k e p) :
    Table hash (h.put (map_key_buffer hash k) p e) := by
  apply ht.store hs
  · have := Bool.toNat_le (h.map.entries p).isFull
    omega
  · cases hd : (h.map.entries p).isDeleted with
    | false => rfl
    | true =>
      have hpos : 0 < h.map.tombstones := ht.tombstones ▸ count_pos hs.lt hd
      simp only [Bool.toNat_true]
      omega

theorem Grown.put {key : map_key_t} (hg : Grown h h') : Grown h (h'.put key p e) := by
  rcases hg with ⟨hc, ht⟩ | ⟨hl, hc, ht⟩
  · exact .inl ⟨hc, (Nat.sub_le _ _).trans ht⟩
  · exact .inr ⟨hl, hc, Nat.sub_eq_zero_of_le (ht ▸ Nat.zero_le _)⟩

variable {calloc : Bool}

/-- A check that succeeds finds a slot, so `ENOMEM` after it cannot happen. -/
theorem findForInsertion_spec (ht : Table hash h) (hc : ¬ CheckFails h.map calloc) (k : List UInt8)
    (he : ¬ InTable h e) :
    ∃ h₁ p, findForInsertion h (map_key_buffer hash k) calloc = (h₁, some p) ∧ Resized hash h h₁ ∧
      Grown h h₁ ∧ Storable hash h₁ k e p := by
  obtain ⟨h₁, hr, hres, hroom, hg⟩ := resize_check_succeeds ht hc
  have ht₁ := hres.table
  have hunused : ∀ q < h₁.map.capacity, h₁.map.entries q ≠ .full e := by
    intro q hq hb
    obtain ⟨p, hp, hpe, -⟩ := (hres.holds _ e).1 ⟨q, hq, hb, rfl⟩
    exact he ⟨p, hp, hpe⟩
  have hfind : findForInsertion h (map_key_buffer hash k) calloc =
      (h₁, map_find_slot h₁.map h₁.entry (map_key_buffer hash k) true) := by
    simp [findForInsertion, hr]
  by_cases habs : Absent h₁ k
  · obtain ⟨p, hp, hf, hfree, hreach⟩ := ht₁.find_insertion habs hroom
    refine ⟨h₁, p, hfind.trans (by rw [hf]), hres, hg, ?_⟩
    exact
      { lt := hp
        reached := hreach
        key := fun b hb => absurd hb (hfree b)
        others := fun q hq b hb _ => habs q hq b hb
        unused := hunused }
  · simp only [Absent, not_forall, not_not] at habs
    obtain ⟨p, hp, b, hb, rfl⟩ := habs
    refine ⟨h₁, p, hfind.trans (by rw [ht₁.find_present hp hb]), hres, hg, ?_⟩
    exact
      { lt := hp
        reached := ht₁.probed.reached p hp b hb
        key := fun b' hb' => congrArg _ (Slot.full.inj (hb'.symm.trans hb))
        others := fun q hq b' hb' hqp hk => hqp (ht₁.probed.unique q hq p hp b' b hb' hb hk)
        unused := hunused }

theorem findForInsertion_fails (ht : Table hash h) (hc : CheckFails h.map calloc) (k : List UInt8) :
    findForInsertion h (map_key_buffer hash k) calloc = (h, none) := by
  simp [findForInsertion, resize_check_fails ht hc]

theorem Resized.stored (hres : Resized hash h h') (hs : Storable hash h' k e p) :
    Stored h (h'.put (map_key_buffer hash k) p e) k e := by
  intro k' e'
  rw [Heap.put, holds_store hs, hres.holds]

section
variable (ht : Table hash h) (hc : ¬ CheckFails h.map calloc) (k : List UInt8) (he : ¬ InTable h e)
include ht hc he

/-- `map_insert` with an entry, after its check. -/
theorem insert_spec :
    ∃ h', Table hash h' ∧ Grown h h' ∧
      ((¬ Absent h k ∧ map_insert h (map_key_buffer hash k) (some e) calloc = (.EEXIST, h') ∧
          ∀ k' e', Holds h' k' e' ↔ Holds h k' e') ∨
        (Absent h k ∧ map_insert h (map_key_buffer hash k) (some e) calloc = (.ok, h') ∧ Stored h h' k e)) := by
  obtain ⟨h₁, p, hf, hres, hg, hs⟩ := findForInsertion_spec ht hc k he
  have habs : (∀ b, h₁.map.entries p ≠ .full b) → Absent h k := by
    intro hfree
    rw [absent_iff]
    intro e' he'
    obtain ⟨q, hq, hb, hk⟩ := (hres.holds k e').2 he'
    refine hs.others q hq e' hb ?_ hk
    rintro rfl
    exact hfree e' hb
  cases hslot : h₁.map.entries p with
  | full b =>
    have hkey := (hres.table.key_eq hs.lt hslot k).2 (hs.key b hslot)
    refine ⟨h₁, hres.table, hg, .inl ⟨fun ha => ?_, ?_, hres.holds⟩⟩
    · exact absent_iff.1 ha b ((hres.holds k b).1 ⟨p, hs.lt, hslot, hs.key b hslot⟩)
    · simp [map_insert, hf, hslot, hkey]
  | deleted | empty =>
    refine ⟨_, hres.table.put hs, hg.put, .inr ⟨habs (by simp [hslot]), ?_, hres.stored hs⟩⟩
    simp [map_insert, hf, hslot, Heap.put, Heap.counted, Heap.store, Slot.isFull, Slot.isDeleted]

theorem replace_spec :
    ∃ h', Table hash h' ∧ map_replace h (map_key_buffer hash k) (some e) calloc = (.ok, h') ∧ Stored h h' k e := by
  obtain ⟨h₁, p, hf, hres, -, hs⟩ := findForInsertion_spec ht hc k he
  refine ⟨h₁.put (map_key_buffer hash k) p e, hres.table.put hs, ?_, hres.stored hs⟩
  cases hslot : h₁.map.entries p <;>
    simp [map_replace, hf, hslot, Heap.put, Heap.counted, Heap.store, Slot.isFull, Slot.isDeleted]

end

/-! ## One lemma for each call -/

/-- The partial map after the entry of a slot is taken out. -/
theorem Inv.erased (hi : Inv hash s) (hp : p < s.heap.map.capacity)
    (he : s.heap.map.entries p = .full e) (calloc : Bool) :
    Inv hash { heap := map_remove_index s.heap p calloc,
               model := update s.model (keyOf s.heap.entry e) none } := by
  rw [remove_index_eq hi.table hp he]
  refine ⟨hi.table.removed hp he, fun k e' => ?_⟩
  rw [hi.table.holds_removed hp he, ← hi.model]
  by_cases hk : k = keyOf s.heap.entry e
  · simp [hk]
  · simp [hk]

/-- What one lemma for each call shows. -/
structure Done (hash : List UInt8 → Nat) (s : System E) (a : Action E) (ret : Ret E) (h' : Heap E) : Prop where
  returns : ret = (spec s.model a.op).1 ∨ ret = .status .ENOMEM ∧ Refused s a
  inv : Inv hash { heap := h', model := next s.model a.op ret }

theorem done_of_spec {ret : Ret E} {m : Model E} (hspec : spec s.model a.op = (ret, m))
    (hret : ret ≠ .status .ENOMEM) (hinv : Inv hash { heap := h', model := m }) : Done hash s a ret h' where
  returns := .inl (by rw [hspec])
  inv := by
    rw [next, if_neg hret, hspec]
    exact hinv

theorem done_of_refused (hi : Inv hash s) (hr : Refused s a) : Done hash s a (.status .ENOMEM) s.heap :=
  ⟨.inr ⟨rfl, hr⟩, by rw [next, if_pos rfl]; exact hi⟩

section
variable (hi : Inv hash s)
include hi

theorem insert_done (hstore : MayStore s.heap entry) (hok : Careful s ⟨.insert k entry, calloc⟩) :
    Done hash s ⟨.insert k entry, calloc⟩ (.status (map_insert s.heap (map_key_buffer hash k) entry calloc).1)
      (map_insert s.heap (map_key_buffer hash k) entry calloc).2 := by
  cases entry with
  | none => exact done_of_spec rfl nofun hi
  | some e =>
    have he : ¬ InTable s.heap e := hstore e rfl
    by_cases hc : CheckFails s.heap.map calloc
    · have habs : s.model k = none := by
        by_contra hk
        exact hok he hk hc
      have hfail : map_insert s.heap (map_key_buffer hash k) (some e) calloc = (.ENOMEM, s.heap) := by
        simp [map_insert, findForInsertion_fails hi.table hc]
      rw [hfail]
      exact done_of_refused hi ⟨hc, habs⟩
    · obtain ⟨h', ht, -, ⟨hk, hr, hh⟩ | ⟨hk, hr, hh⟩⟩ := insert_spec hi.table hc k he <;> rw [hr]
      · have hsome : s.model k ≠ none := mt hi.model_none.1 hk
        exact done_of_spec (if_neg hsome) nofun ⟨ht, fun k' e' => (hi.model k' e').trans (hh k' e').symm⟩
      · exact done_of_spec (if_pos (hi.model_none.2 hk)) nofun (hi.stored ht hh)

theorem replace_done (hstore : MayStore s.heap entry) :
    Done hash s ⟨.replace k entry, calloc⟩ (.status (map_replace s.heap (map_key_buffer hash k) entry calloc).1)
      (map_replace s.heap (map_key_buffer hash k) entry calloc).2 := by
  cases entry with
  | none => exact done_of_spec rfl nofun hi
  | some e =>
    by_cases hc : CheckFails s.heap.map calloc
    · have hfail : map_replace s.heap (map_key_buffer hash k) (some e) calloc = (.ENOMEM, s.heap) := by
        simp [map_replace, findForInsertion_fails hi.table hc]
      rw [hfail]
      exact done_of_refused hi hc
    · obtain ⟨h', ht, hr, hh⟩ := replace_spec hi.table hc k (hstore e rfl)
      rw [hr]
      exact done_of_spec rfl nofun (hi.stored ht hh)

theorem get_done : Done hash s ⟨.get k, calloc⟩ (.entry (map_get s.heap (map_key_buffer hash k))) s.heap := by
  rw [hi.refines.get k]
  exact done_of_spec rfl nofun hi

theorem get_and_remove_done :
    Done hash s ⟨.getAndRemove k, calloc⟩ (.entry (map_get_and_remove s.heap (map_key_buffer hash k) calloc).1)
      (map_get_and_remove s.heap (map_key_buffer hash k) calloc).2 := by
  unfold map_get_and_remove
  obtain ⟨hl, hk⟩ | ⟨p, e, hl, hp, he, rfl, hk⟩ := hi.lookup k <;> rw [hl]
  · refine done_of_spec (m := s.model) ?_ nofun hi
    simp only [spec, hk, update_none_of_absent hk]
  · refine done_of_spec ?_ nofun (hi.erased hp he calloc)
    simp only [spec, hk]

theorem remove_key_done :
    Done hash s ⟨.removeKey k, calloc⟩ .void (map_remove_key s.heap (map_key_buffer hash k) calloc) := by
  unfold map_remove_key
  obtain ⟨hl, hk⟩ | ⟨p, e, hl, hp, he, rfl, hk⟩ := hi.lookup k <;> rw [hl]
  · refine done_of_spec (m := s.model) ?_ nofun hi
    simp only [spec, update_none_of_absent hk]
  · exact done_of_spec rfl nofun (hi.erased hp he calloc)

theorem Inv.remove_entry (hp : p < s.heap.map.capacity) (he : s.heap.map.entries p = .full e) :
    (fun k => if s.model k = some e then none else s.model k) =
      update s.model (keyOf s.heap.entry e) none := by
  funext k
  by_cases hk : k = keyOf s.heap.entry e
  · rw [hk, update_self, if_pos ((hi.model _ e).2 ⟨p, hp, he, rfl⟩)]
  · rw [update_of_ne hk, if_neg]
    intro hm
    obtain ⟨q, hq, hb, hk'⟩ := (hi.model k e).1 hm
    exact hk hk'.symm

theorem Inv.remove_missing (he : ¬ InTable s.heap e) :
    (fun k => if s.model k = some e then none else s.model k) = s.model := by
  funext k
  rw [if_neg]
  intro hm
  obtain ⟨q, hq, hb, -⟩ := (hi.model k e).1 hm
  exact he ⟨q, hq, hb⟩

theorem remove_done (hok : Careful s ⟨.remove entry, calloc⟩)
    (hr : map_remove s.heap entry calloc = some h') : Done hash s ⟨.remove entry, calloc⟩ .void h' := by
  cases entry with
  | none =>
    obtain rfl := Option.some.inj hr
    exact done_of_spec rfl nofun hi
  | some e =>
    have hnone : (¬ InTable s.heap e) → spec s.model (.remove (some e)) = (.void, s.model) :=
      fun he => congrArg (Prod.mk _) (hi.remove_missing he)
    cases hidx : (s.heap.entry e).index with
    | none =>
      simp only [map_remove, hidx, Option.some.injEq] at hr
      rw [← hr]
      refine done_of_spec (hnone ?_) nofun hi
      rintro ⟨p, hp, he⟩
      rw [hi.table.placed p hp e he] at hidx
      cases hidx
    | some i =>
      obtain ⟨hilt, hmap⟩ := hi.table.index e i hidx
      simp only [map_remove, hidx, hmap, if_true, Option.some.injEq] at hr
      rw [← hr]
      cases hslot : s.heap.map.entries i with
      | full e' =>
        obtain rfl := hok i hidx e' hslot
        exact done_of_spec (congrArg (Prod.mk _) (hi.remove_entry hilt hslot)) nofun (hi.erased hilt hslot calloc)
      | _ =>
        have hsame : map_remove_index s.heap i calloc = s.heap := by simp [map_remove_index, hslot]
        rw [hsame]
        refine done_of_spec (hnone ?_) nofun hi
        rintro ⟨p, hp, he⟩
        obtain rfl := Option.some.inj ((hi.table.placed p hp e he).symm.trans hidx)
        rw [hslot] at he
        cases he

theorem clear_done : Done hash s ⟨.clear, calloc⟩ .void (map_clear s.heap) := by
  refine done_of_spec rfl nofun ⟨hi.table.clear, fun k e => ?_⟩
  simp [holds_clear]

theorem reserve_done (n : UInt64) :
    Done hash s ⟨.reserve n, calloc⟩ (.status (map_reserve s.heap n.toNat calloc).1)
      (map_reserve s.heap n.toNat calloc).2 := by
  unfold map_reserve
  split_ifs with hlt
  · exact done_of_spec rfl nofun hi
  · obtain ⟨hn, hc, hr⟩ | ⟨h', hr, hres⟩ := resize_spec hi.table (next_pow2_lt n.toNat_lt) calloc <;> rw [hr]
    · exact done_of_refused hi ⟨hn, hc⟩
    · exact done_of_spec rfl nofun ⟨hres.table, fun k e => (hi.model k e).trans (hres.holds k e).symm⟩

end

/-! ## Runs -/

theorem call_done {ret : Ret E} (hi : Inv hash s) (hok : Careful s a)
    (hc : call hash s.heap a = some (ret, h')) : Done hash s a ret h' := by
  obtain ⟨op, calloc⟩ := a
  cases op with
  | insert k entry =>
    simp only [call] at hc
    split_ifs at hc with hstore
    cases hc
    exact insert_done hi hstore hok
  | replace k entry =>
    simp only [call] at hc
    split_ifs at hc with hstore
    cases hc
    exact replace_done hi hstore
  | get k =>
    cases hc
    exact get_done hi
  | getAndRemove k =>
    cases hc
    exact get_and_remove_done hi
  | remove entry =>
    obtain ⟨h'', hr, heq⟩ := map_eq_some_iff.1 hc
    cases heq
    exact remove_done hi hok hr
  | removeKey k =>
    cases hc
    exact remove_key_done hi
  | clear =>
    cases hc
    exact clear_done hi
  | reserve n =>
    cases hc
    exact reserve_done hi n

theorem Good.refines {s' : System E} (hg : Good hash s a) (hs : step hash s a = some s') : Refines hash s' := by
  obtain ⟨⟨ret, h'⟩, hc, rfl⟩ := map_eq_some_iff.1 hs
  exact (hg ret h' hc).refines

theorem good_of_careful (hi : Inv hash s) (hok : Careful s a) : Good hash s a := by
  intro ret h' hc
  have hd := call_done hi hok hc
  exact ⟨hd.returns, hd.inv.refines⟩

theorem inv_step {s' : System E} (hi : Inv hash s) (hok : Careful s a) (hs : step hash s a = some s') : Inv hash s' := by
  obtain ⟨⟨ret, h'⟩, hc, rfl⟩ := map_eq_some_iff.1 hs
  exact (call_done hi hok hc).inv

/-- `map_remove` with an index that is out of date takes out another entry. -/
theorem careful_of_good_remove (hi : Inv hash s)
    (hg : Good hash s ⟨.remove (some e), calloc⟩) : Careful s ⟨.remove (some e), calloc⟩ := by
  intro i hidx e' hslot
  by_contra hne
  obtain ⟨hilt, hmap⟩ := hi.table.index e i hidx
  have hheld : s.model (keyOf s.heap.entry e') = some e' := (hi.model _ e').2 ⟨i, hilt, hslot, rfl⟩
  have hcall : call hash s.heap ⟨.remove (some e), calloc⟩ = some (.void, s.heap.removed i e') := by
    simp [call, map_remove, hidx, hmap, remove_index_eq hi.table hilt hslot]
  have hget := (hg _ _ hcall).refines.get (keyOf s.heap.entry e')
  have hlost : ∀ b, ¬ Holds (s.heap.removed i e') (keyOf s.heap.entry e') b :=
    fun b hb => ((hi.table.holds_removed hilt hslot _ b).1 hb).1 rfl
  -- The partial map still has the entry, and the table does not.
  have hkept : next s.model (.remove (some e)) .void (keyOf s.heap.entry e') = some e' := by
    simp [next, spec, hheld, hne]
  have hnone := eq_none_iff_forall_ne_some.2 fun b hb =>
    hlost b ((hi.table.removed hilt hslot).get_eq_some.1 hb)
  exact nomatch hnone.symm.trans (hget.trans hkept)

/-- `map_insert` without memory says so for a key that is there. -/
theorem careful_of_good_insert (hi : Inv hash s)
    (hg : Good hash s ⟨.insert k (some e), calloc⟩) : Careful s ⟨.insert k (some e), calloc⟩ := by
  intro he hk hc
  have hstore : MayStore s.heap (some e) := fun e' he' => Option.some.inj he' ▸ he
  have hcall : call hash s.heap ⟨.insert k (some e), calloc⟩ = some (.status .ENOMEM, s.heap) := by
    simp [call, hstore, map_insert, findForInsertion_fails hi.table hc]
  rcases (hg _ _ hcall).returns with hret | ⟨-, -, hnone⟩
  · simp [spec, hk] at hret
  · exact hk hnone

theorem careful_of_good (hi : Inv hash s) (hg : Good hash s a) : Careful s a := by
  obtain ⟨op, calloc⟩ := a
  cases op with
  | insert k entry =>
    cases entry with
    | none => trivial
    | some e => exact careful_of_good_insert hi hg
  | remove entry =>
    cases entry with
    | none => trivial
    | some e => exact careful_of_good_remove hi hg
  | _ => trivial

/-- Along a run of calls with any keys, any hash function and any answers of
`calloc`, every call behaves as on a finite partial map, exactly if no entry is
removed through an index that another entry's slot has, and no key that is there is
inserted while the table is full and `calloc` refuses. -/
theorem map_refines_iff_careful (hash : List UInt8 → Nat) (as : List (Action E)) :
    Along (step hash) (Good hash) (init : System E) as ↔ Along (step hash) Careful (init : System E) as := by
  constructor
  · exact Along.along (fun _ _ _ hi hg => inv_step hi (careful_of_good hi hg)) (fun _ _ => careful_of_good) inv_init
  · exact Along.along (fun _ _ _ => inv_step) (fun _ _ => good_of_careful) inv_init

/-- An entry is replaced by another one under its key, and then removed. -/
def replacedRemoved : List (Action Bool) :=
  [⟨.insert [1] (some false), true⟩, ⟨.replace [1] (some true), true⟩, ⟨.remove (some false), true⟩]

/-- The new entry is gone from the table, which says that the key is not there. -/
theorem replacedRemoved_not_good :
    (run (step hash_object) init replacedRemoved).map
        (fun s => (map_get s.heap (map_key_buffer hash_object [1]), s.model [1])) = some (none, some true) ∧
      ¬ Along (step hash_object) (Good hash_object) init replacedRemoved := by
  have hr : (run (step hash_object) init replacedRemoved).map
      (fun s => (map_get s.heap (map_key_buffer hash_object [1]), s.model [1])) = some (none, some true) := by
    decide +kernel
  refine ⟨hr, fun hg => ?_⟩
  obtain ⟨s, hs, hpair⟩ := map_eq_some_iff.1 hr
  simp only [Prod.mk.injEq] at hpair
  have hall := Along.always (I := Refines hash_object) (fun _ _ _ _ => Good.refines) inv_init.refines hg
  have hget := (hall.last hs).get [1]
  rw [hpair.1, hpair.2] at hget
  cases hget

/-! ## The capacity

A removal that leaves few entries asks `map_resize` for half the capacity, which returns at once as that
is not larger. The capacity is in proportion to the entries only without such removals. -/

variable {n : Nat}

/-- A call that inserts or removes. -/
def churn (hash : List UInt8 → Nat) (h : Heap E) (a : Action E) : Option (Heap E) :=
  match a.op with
  | .insert .. | .getAndRemove _ | .remove _ | .removeKey _ => (call hash h a).map Prod.snd
  | _ => none

/-- With one entry less the load is below the least. -/
def LeavesFew (h : Heap E) : Prop :=
  (h.map.length - 1) * 100 < MAP_MIN_LOAD_PERCENTAGE * h.map.capacity ∧ h.map.capacity ≠ MAP_MIN_CAPACITY

instance (h : Heap E) : Decidable (LeavesFew h) := inferInstanceAs (Decidable (_ ∧ _))

def Halves (hash : List UInt8 → Nat) (h : Heap E) (a : Action E) : Prop :=
  ∀ h' ∈ churn hash h a, h'.map.length < h.map.length → LeavesFew h → h'.map.capacity = h.map.capacity / 2

instance (h : Heap E) (a : Action E) : Decidable (Halves hash h a) := inferInstanceAs (Decidable (∀ _ ∈ _, _))

def KeepsLoad (hash : List UInt8 → Nat) (h : Heap E) (a : Action E) : Prop :=
  ∀ h' ∈ churn hash h a, h'.map.length < h.map.length → ¬ LeavesFew h

/-- What a call does to the capacity. -/
def Churned (hash : List UInt8 → Nat) (h h' : Heap E) : Prop :=
  Table hash h' ∧ (Grown h h' ∨ h'.map.capacity = h.map.capacity ∧ h'.map.length + 1 = h.map.length)

theorem insert_churned (ht : Table hash h) (hstore : MayStore h entry) :
    Churned hash h (map_insert h (map_key_buffer hash k) entry calloc).2 := by
  cases entry with
  | none => exact ⟨ht, .inl .refl⟩
  | some e =>
    by_cases hc : CheckFails h.map calloc
    · simpa [map_insert, findForInsertion_fails ht hc] using ⟨ht, .inl .refl⟩
    · obtain ⟨h', ht', hg, ⟨-, hr, -⟩ | ⟨-, hr, -⟩⟩ := insert_spec ht hc k (hstore e rfl) <;> rw [hr] <;>
        exact ⟨ht', .inl hg⟩

theorem remove_index_churned (ht : Table hash h) (hp : p < h.map.capacity) (calloc : Bool) :
    Churned hash h (map_remove_index h p calloc) := by
  cases hslot : h.map.entries p with
  | full e =>
    rw [remove_index_eq ht hp hslot]
    have hpos : 0 < h.map.length := ht.length ▸ count_pos hp (by rw [hslot]; rfl)
    exact ⟨ht.removed hp hslot, .inr ⟨rfl, Nat.sub_add_cancel hpos⟩⟩
  | _ => simpa [map_remove_index, hslot] using ⟨ht, .inl .refl⟩

theorem churn_churned (ht : Table hash h) (hs : churn hash h a = some h') : Churned hash h h' := by
  have hsame : Churned hash h h := ⟨ht, .inl .refl⟩
  obtain ⟨op, calloc⟩ := a
  cases op with
  | insert k entry =>
    obtain ⟨⟨ret, _⟩, hc, rfl⟩ := map_eq_some_iff.1 hs
    obtain ⟨hstore, ⟨⟩⟩ := ite_none_right_eq_some.1 hc
    exact insert_churned ht hstore
  | getAndRemove k | removeKey k =>
    cases hs
    cases hl : lookup h (map_key_buffer hash k) with
    | none => simpa [map_get_and_remove, map_remove_key, hl] using hsame
    | some found =>
      simpa [map_get_and_remove, map_remove_key, hl] using
        remove_index_churned ht (ht.lookup_eq_some.1 hl).1 calloc
  | remove entry =>
    simp only [churn, call, map_map, map_eq_some_iff] at hs
    obtain ⟨h'', hr, rfl⟩ := hs
    unfold map_remove at hr
    split at hr
    · cases hr
      exact hsame
    · split at hr
      · cases hr
        exact hsame
      · rename_i hidx
        obtain ⟨-, ⟨⟩⟩ := ite_none_right_eq_some.1 hr
        exact remove_index_churned ht (ht.index _ _ hidx).1 calloc
  | _ => cases hs

theorem keepsLoad_of_halves (ht : Table hash h) (hh : Halves hash h a) : KeepsLoad hash h a := by
  intro h' hs hlt hfew
  have hhalf := hh h' hs hlt hfew
  have hlen := ht.length_le
  have hwanted := (wantedCapacity_spec ht).2.2
  obtain ⟨-, (⟨hc, -⟩ | ⟨-, hc, -⟩) | ⟨hc, -⟩⟩ := churn_churned ht hs <;> omega

/-- The bound for at most `n` entries. -/
structure Bounded (hash : List UInt8 → Nat) (n : Nat) (h : Heap E) : Prop where
  table : Table hash h
  capacity : h.map.capacity ≤ max 32 (8 * n)
  tombstones : h.map.tombstones = 0 ∨ h.map.capacity ≤ max 16 (4 * n)

theorem bounded_churn (hn : h.map.length ≤ n) (hn' : h'.map.length ≤ n) (hb : Bounded hash n h)
    (hok : KeepsLoad hash h a) (hs : churn hash h a = some h') : Bounded hash n h' := by
  have hcap := hb.capacity
  have htomb := hb.tombstones
  have hfew := hok h' hs
  simp only [LeavesFew, MAP_MIN_LOAD_PERCENTAGE, MAP_MIN_CAPACITY] at hfew
  obtain ⟨ht', (⟨hc, ht⟩ | ⟨hl, hc, ht⟩) | ⟨hc, hlt⟩⟩ := churn_churned hb.table hs
  · exact ⟨ht', by omega, by omega⟩
  · simp only [Loaded, MAP_MAX_LOAD_PERCENTAGE] at hl
    simp only [wantedCapacity, MAP_MIN_CAPACITY] at hc
    refine ⟨ht', ?_, .inl ht⟩
    split_ifs at hc <;> omega
  · exact ⟨ht', by omega, by omega⟩

/-- Along a run of insertions and removals, each removal that leaves few entries halves the capacity, and
the capacity is in proportion to the most entries, exactly if no removal leaves few entries. -/
theorem capacity_proportional_iff (hash : List UInt8 → Nat) (as : List (Action E)) :
    (Along (churn hash) (Halves hash) init.heap as ∧
        ∀ n, Always (churn hash) (·.map.length ≤ n) init.heap as →
          Always (churn hash) (·.map.capacity ≤ max 32 (8 * n)) init.heap as) ↔
      Along (churn hash) (KeepsLoad hash) (init : System E).heap as := by
  constructor
  · rintro ⟨hh, -⟩
    exact hh.along (fun _ _ _ ht _ hs => (churn_churned ht hs).1) (fun _ _ => keepsLoad_of_halves) inv_init.table
  · intro hk
    refine ⟨hk.along (I := fun _ => True) (fun _ _ _ _ _ _ => trivial)
      (fun _ _ _ hk h' hs hlt hfew => absurd hfew (hk h' hs hlt)) trivial, fun n hn => ?_⟩
    exact (hk.always_with (fun _ _ _ => bounded_churn) ⟨inv_init.table, Nat.zero_le _, .inl rfl⟩ hn).mono
      fun _ hb => hb.capacity

/-- Thirteen entries are inserted, and six of them removed. -/
def grownEmptied : List (Action Nat) :=
  (List.range 13).map (fun i => ⟨.insert [i.toUInt8] (some i), true⟩) ++
    (List.range 6).map fun i => ⟨.remove (some i), true⟩

theorem grownEmptied_not_halved :
    ¬ Along (churn hash_object) (Halves hash_object) (init : System Nat).heap grownEmptied := by
  decide +kernel

end Patchwork.Map
