import Patchwork.Lib.Probing
/-!
# The hash map

`map.c`: an open-addressing table of pointers to entries that the callers own.
A pointer is `NULL` (`Slot.empty`), `MAP_TOMBSTONE` (`Slot.deleted`) or an entry
of the type `E`. The entries of all callers are kept in `entry`; one map is
modelled, and `map` of an entry says whether its pointer is to that map.

Every operation is given the answer of `calloc`, if it asks for a new table. A
table cannot be larger than the kernel's half of the address space.
-/

namespace Patchwork.Map

open Function Lib

def MAP_MIN_CAPACITY : Nat := 16
def MAP_MAX_LOAD_PERCENTAGE : Nat := 75
def MAP_MIN_LOAD_PERCENTAGE : Nat := 25

/-- The bytes of the key, and their hash. -/
structure map_key_t where
  key : List UInt8
  hash : Nat
deriving Repr, DecidableEq

structure map_entry_t where
  key : map_key_t
  /-- `none` is `ERR`. -/
  index : Option Nat
  map : Bool
deriving Repr, DecidableEq

structure map_t (E : Type) where
  entries : Nat → Slot E
  capacity : Nat
  length : Nat
  tombstones : Nat

/-- The map and the memory of the entries. -/
structure Heap (E : Type) where
  map : map_t E
  entry : E → map_entry_t

/-- The results of the operations that can fail, with `errno`. -/
inductive status_t where
  | ok
  | EINVAL
  | ENOMEM
  | EEXIST
deriving Repr, DecidableEq

/-! ## Keys -/

def hash_object (object : List UInt8) : Nat :=
  object.foldl (fun hash b => (hash ^^^ b.toNat) * 0x100000001b3 % 2 ^ 64) 0xcbf29ce484222325

/-- A key with the hash function `hash`, which is `hash_object` in the source. -/
def map_key_buffer (hash : List UInt8 → Nat) (buffer : List UInt8) : map_key_t :=
  { key := buffer, hash := hash buffer }

def map_key_is_equal (a b : map_key_t) : Bool :=
  if a.hash ≠ b.hash then false
  else if a.key.length ≠ b.key.length then false
  else a.key == b.key

/-! ## Powers of two -/

def IS_POW2 (x : Nat) : Bool := x &&& ((x + 2 ^ 64 - 1) % 2 ^ 64) = 0

def next_pow2 (n : Nat) : Nat :=
  if n ≤ 1 then 2
  else if n > 0 ∧ n &&& (n - 1) = 0 then n
  else
    let n := n - 1
    let n := n ||| n >>> 1
    let n := n ||| n >>> 2
    let n := n ||| n >>> 4
    let n := n ||| n >>> 8
    let n := n ||| n >>> 16
    let n := n ||| n >>> 32
    let n := (n + 1) % 2 ^ 64
    if n = 0 then 2 ^ 63 else n

variable {E : Type} [DecidableEq E]

/-! ## The table -/

/-- The loop of `map_find_slot`, with the turns that are left. -/
def findLoop (map : map_t E) (entry : E → map_entry_t) (key : map_key_t) (forInsertion : Bool) (index : Nat) :
    (left i : Nat) → (firstTombstone : Option Nat) → Option Nat
  | 0, _, firstTombstone => if forInsertion then firstTombstone else none
  | left + 1, i, firstTombstone =>
    let currentIndex := (index + i) &&& (map.capacity - 1)
    match map.entries currentIndex with
    | .empty => if forInsertion ∧ firstTombstone ≠ none then firstTombstone else some currentIndex
    | .deleted =>
      findLoop map entry key forInsertion index left (i + 1)
        (if forInsertion ∧ firstTombstone = none then some currentIndex else firstTombstone)
    | .full e =>
      if map_key_is_equal (entry e).key key then some currentIndex
      else findLoop map entry key forInsertion index left (i + 1) firstTombstone

def map_find_slot (map : map_t E) (entry : E → map_entry_t) (key : map_key_t) (forInsertion : Bool) :
    Option Nat :=
  findLoop map entry key forInsertion (key.hash &&& (map.capacity - 1)) map.capacity 0 none

/-- An entry is stored: its key and place are written, and the slot. -/
def Heap.store (h : Heap E) (key : map_key_t) (index : Nat) (e : E) : Heap E where
  map := { h.map with entries := update h.map.entries index (.full e) }
  entry := update h.entry e { key := key, index := some index, map := true }

/-- The loop of `map_resize` over the old table. It stops with an error if an
entry finds no slot. -/
def rehash (old : Nat → Slot E) : List Nat → Heap E → Except (Heap E) (Heap E)
  | [], h => .ok h
  | i :: is, h =>
    match old i with
    | .full e =>
      match map_find_slot h.map h.entry (h.entry e).key true with
      | none => .error h
      | some newIndex =>
        let h := h.store (h.entry e).key newIndex e
        rehash old is { h with map := { h.map with length := h.map.length + 1 } }
    | _ => rehash old is h

/-- `calloc` of a table, which has no room above half the address space. -/
def callocTable (answer : Bool) (newCapacity : Nat) : Bool := answer && newCapacity * 8 ≤ 2 ^ 47

/-- The second component is whether the result is `0`. -/
def map_resize (h : Heap E) (newCapacity : Nat) (calloc : Bool) : Heap E × Bool :=
  let newCapacity := if IS_POW2 newCapacity then newCapacity else next_pow2 newCapacity
  if newCapacity ≤ h.map.capacity then (h, true)
  else if callocTable calloc newCapacity then
    let fresh : map_t E := { entries := fun _ => .empty, capacity := newCapacity, length := 0, tombstones := 0 }
    match rehash h.map.entries (List.range h.map.capacity) { h with map := fresh } with
    | .ok h' => (h', true)
    | .error h' => ({ h' with map := h.map }, false)
  else (h, false)

def map_init : map_t E := { entries := fun _ => .empty, capacity := 0, length := 0, tombstones := 0 }

def map_resize_check (h : Heap E) (calloc : Bool) : Heap E × Bool :=
  let currentEntries := h.map.length + h.map.tombstones
  if currentEntries * 100 % 2 ^ 64 ≥ MAP_MAX_LOAD_PERCENTAGE * h.map.capacity % 2 ^ 64 then
    let newCapacity := if h.map.capacity = 0 then MAP_MIN_CAPACITY else h.map.capacity * 2 % 2 ^ 64
    map_resize h newCapacity calloc
  else (h, true)

/-- Both `map_insert` and `map_replace` look for their slot this way. -/
def findForInsertion (h : Heap E) (key : map_key_t) (calloc : Bool) : Heap E × Option Nat :=
  let (h, ok) := map_resize_check h calloc
  (h, if ok then map_find_slot h.map h.entry key true else none)

def map_insert (h : Heap E) (key : map_key_t) (entry : Option E) (calloc : Bool) : status_t × Heap E :=
  match entry with
  | none => (.EINVAL, h)
  | some e =>
    match findForInsertion h key calloc with
    | (h, none) => (.ENOMEM, h)
    | (h, some index) =>
      match h.map.entries index with
      | .full e' =>
        if map_key_is_equal (h.entry e').key key then (.EEXIST, h)
        else
          let h := h.store key index e
          (.ok, { h with map := { h.map with length := h.map.length + 1 } })
      | .deleted =>
        let h := h.store key index e
        (.ok, { h with map := { h.map with length := h.map.length + 1, tombstones := h.map.tombstones - 1 } })
      | .empty =>
        let h := h.store key index e
        (.ok, { h with map := { h.map with length := h.map.length + 1 } })

/-- The entry that is replaced keeps its index. -/
def map_replace (h : Heap E) (key : map_key_t) (entry : Option E) (calloc : Bool) : status_t × Heap E :=
  match entry with
  | none => (.EINVAL, h)
  | some e =>
    match findForInsertion h key calloc with
    | (h, none) => (.ENOMEM, h)
    | (h, some index) =>
      match h.map.entries index with
      | .full _ => (.ok, h.store key index e)
      | .deleted =>
        let h := h.store key index e
        (.ok, { h with map := { h.map with length := h.map.length + 1, tombstones := h.map.tombstones - 1 } })
      | .empty =>
        let h := h.store key index e
        (.ok, { h with map := { h.map with length := h.map.length + 1 } })

/-- The slot and the entry of a key, as the operations look it up. -/
def lookup (h : Heap E) (key : map_key_t) : Option (Nat × E) :=
  match map_find_slot h.map h.entry key false with
  | none => none
  | some index =>
    match h.map.entries index with
    | .full e => if map_key_is_equal (h.entry e).key key then some (index, e) else none
    | _ => none

def map_get (h : Heap E) (key : map_key_t) : Option E := (lookup h key).map Prod.snd

def map_remove_index (h : Heap E) (index : Nat) (calloc : Bool) : Heap E :=
  match h.map.entries index with
  | .full e =>
    let h := { h with map :=
      { h.map with
        entries := update h.map.entries index .deleted
        length := h.map.length - 1
        tombstones := h.map.tombstones + 1 } }
    let h :=
      if h.map.capacity > MAP_MIN_CAPACITY ∧
          h.map.length * 100 % 2 ^ 64 < MAP_MIN_LOAD_PERCENTAGE * h.map.capacity % 2 ^ 64 then
        let newCapacity := h.map.capacity / 2
        let newCapacity := if newCapacity < MAP_MIN_CAPACITY then MAP_MIN_CAPACITY else newCapacity
        (map_resize h newCapacity calloc).1
      else h
    { h with entry := update h.entry e { h.entry e with index := none, map := false } }
  | _ => h

def map_get_and_remove (h : Heap E) (key : map_key_t) (calloc : Bool) : Option E × Heap E :=
  match lookup h key with
  | none => (none, h)
  | some (index, e) => (some e, map_remove_index h index calloc)

/-- An entry of another map fails the assertion. -/
def map_remove (h : Heap E) (entry : Option E) (calloc : Bool) : Option (Heap E) :=
  match entry with
  | none => some h
  | some e =>
    match (h.entry e).index with
    | none => some h
    | some index => if (h.entry e).map then some (map_remove_index h index calloc) else none

def map_remove_key (h : Heap E) (key : map_key_t) (calloc : Bool) : Heap E :=
  match lookup h key with
  | none => h
  | some (index, _) => map_remove_index h index calloc

def map_size (map : map_t E) : Nat := map.length

/-- A turn of the loop of `map_clear`. -/
def clearSlot (h : Heap E) (i : Nat) : Heap E where
  map := { h.map with entries := update h.map.entries i .empty }
  entry :=
    match h.map.entries i with
    | .full e => update h.entry e { h.entry e with index := none, map := false }
    | _ => h.entry

def map_clear (h : Heap E) : Heap E :=
  let h := (List.range h.map.capacity).foldl clearSlot h
  { h with map := { h.map with length := 0, tombstones := 0 } }

def map_reserve (h : Heap E) (minCapacity : Nat) (calloc : Bool) : status_t × Heap E :=
  if minCapacity < h.map.length then (.ok, h)
  else
    match map_resize h (next_pow2 minCapacity) calloc with
    | (h, false) => (.ENOMEM, h)
    | (h, true) => (.ok, h)

end Patchwork.Map
