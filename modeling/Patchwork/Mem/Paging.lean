import Patchwork.Lib.BitField
import Patchwork.Mem.Pmm
/-!
# Page tables (`kernel/mem/paging.h`)

A table of any level is a `pml_t`: its 512 entries and, for each, the table in
the frame that the entry names. Each table hangs at one entry only. Virtual
addresses are numbers modulo `2 ^ 64`. The frames of new tables come from the
functions of `Env`, which also gives the results of `malloc`; a function that
allocates or frees takes and returns its state.

`page_table_traverse` caches the tables it went through in the flags `pml3Valid`,
`pml2Valid` and `pml1Valid` of `page_table_traverse_t`. The tables themselves are
known by the indices they were reached with, so the record has no pointers.
-/

namespace Patchwork.Paging

open Lib

/-! ## Entries -/

abbrev pml_entry_t := BitVec 64
abbrev pml_flags_t := BitVec 64

def PML_NONE : pml_flags_t := 0#64
def PML_PRESENT : pml_flags_t := 1#64 <<< 0
def PML_WRITE : pml_flags_t := 1#64 <<< 1
def PML_USER : pml_flags_t := 1#64 <<< 2
def PML_WRITE_THROUGH : pml_flags_t := 1#64 <<< 3
def PML_CACHE_DISABLED : pml_flags_t := 1#64 <<< 4
def PML_ACCESSED : pml_flags_t := 1#64 <<< 5
def PML_DIRTY : pml_flags_t := 1#64 <<< 6
def PML_SIZE : pml_flags_t := 1#64 <<< 7
def PML_GLOBAL : pml_flags_t := 1#64 <<< 8
def PML_OWNED : pml_flags_t := 1#64 <<< 9
def PML_NO_EXECUTE : pml_flags_t := 1#64 <<< 63

def PML_FLAGS_MASK : pml_flags_t :=
  PML_PRESENT ||| PML_WRITE ||| PML_USER ||| PML_WRITE_THROUGH ||| PML_CACHE_DISABLED ||| PML_ACCESSED ||| PML_DIRTY |||
    PML_SIZE ||| PML_GLOBAL ||| PML_OWNED ||| PML_NO_EXECUTE

/-- `PML_MAX_CALLBACK` and `PML_CALLBACK_NONE` are one number. -/
def PML_MAX_CALLBACK : Nat := 2 ^ 8 - 1
def PML_CALLBACK_NONE : Nat := 2 ^ 8 - 1

namespace Entry

variable (entry : pml_entry_t)

def present : Bool := entry.getLsbD 0
def owned : Bool := entry.getLsbD 9
def pinned : Bool := entry.getLsbD 10
def pfn : Nat := field entry 12 40

/-- `lowCallbackId | (highCallbackId << 1)`. -/
def callbackId : Nat := field entry 11 1 ||| field entry 52 7 <<< 1

def setPfn (pfn : Nat) : pml_entry_t := setField entry 12 40 pfn

/-- `lowCallbackId = callbackId & 1; highCallbackId = callbackId >> 1`. -/
def setCallbackId (callbackId : Nat) : pml_entry_t :=
  setField (setField entry 11 1 (callbackId &&& 1)) 52 7 (callbackId >>> 1)

/-- `present = 0`. -/
def clearPresent : pml_entry_t := setField entry 0 1 0

end Entry

/-! ## Tables -/

/-- A table; `null` reads as a table of zeros. -/
inductive pml_t where
  | null
  | mk (entries : Nat → pml_entry_t) (next : Nat → pml_t)

namespace pml_t

def entry : pml_t → Nat → pml_entry_t
  | null, _ => 0#64
  | mk entries _, i => entries i

/-- The table in the frame that entry `i` names. -/
def next : pml_t → Nat → pml_t
  | null, _ => null
  | mk _ next, i => next i

/-- Entry `i` with the table in its frame. -/
def set (pml : pml_t) (i : Nat) (e : pml_entry_t) (table : pml_t) : pml_t :=
  mk (Function.update pml.entry i e) (Function.update pml.next i table)

def setNext (pml : pml_t) (i : Nat) (table : pml_t) : pml_t := pml.set i (pml.entry i) table

end pml_t

def PML_INDEX_AMOUNT : Nat := 512
def PML2_SIZE : Nat := 2 ^ 21
def PML3_SIZE : Nat := 2 ^ 30
def PML4_SIZE : Nat := 2 ^ 39
def PML_LOWER_HALF_END : Nat := 2 ^ 47 - PAGE_SIZE
def PML_HIGHER_HALF_START : Nat := 2 ^ 64 - 2 ^ 47

def PML_ADDR_TO_INDEX (addr level : Nat) : Nat := addr / 2 ^ ((level - 1) * 9 + 12) % PML_INDEX_AMOUNT

def PML_INDEX_TO_ADDR (index level : Nat) : Nat :=
  let addr := index * 2 ^ ((level - 1) * 9 + 12) % 2 ^ 64
  if index < 256 then addr else addr ||| PML_HIGHER_HALF_START

def ROUND_DOWN (number multiple : Nat) : Nat := number / multiple * multiple

/-- `allocPages` and `freePages` of a page table, and whether `malloc` succeeds. -/
structure Env (σ : Type) where
  allocPages : σ → Nat → Option (Nat → Nat) × σ
  freePages : σ → List Nat → σ
  malloc : σ → Nat → Bool × σ

variable {σ : Type} (env : Env σ)

def pml_new (mem : σ) : Option (Nat × pml_t) × σ :=
  match env.allocPages mem 1 with
  | (none, mem) => (none, mem)
  | (some pfns, mem) => (some (pfns 0, .mk (fun _ => 0#64) fun _ => .null), mem)

open Entry

/-- `current` with the table at `index` in place; `none` is `ERR`. -/
def page_table_get_pml (current : pml_t) (mem : σ) (index : Nat) (flags : pml_flags_t) : Option pml_t × σ :=
  if present (current.entry index) then (some current, mem)
  else if present flags then
    match pml_new env mem with
    | (none, mem) => (none, mem)
    | (some (pfn, next), mem) => (some (current.set index (setPfn (flags &&& PML_FLAGS_MASK) pfn) next), mem)
  else (none, mem)

/-! ## Walking a table -/

structure page_table_traverse_t where
  pml3Valid : Bool
  pml2Valid : Bool
  pml1Valid : Bool
  oldIdx3 : Nat
  oldIdx2 : Nat
  oldIdx1 : Nat

def PAGE_TABLE_TRAVERSE_CREATE : page_table_traverse_t :=
  { pml3Valid := false, pml2Valid := false, pml1Valid := false, oldIdx3 := 0, oldIdx2 := 0, oldIdx1 := 0 }

/-- One level of `page_table_traverse`: the table at `newIdx` unless it is the
cached one. -/
def traverseLevel (hit : Bool) (current : pml_t) (mem : σ) (newIdx : Nat) (flags : pml_flags_t) : Option pml_t × σ :=
  if !hit then page_table_get_pml env current mem newIdx flags else (some current, mem)

/-- Whether it succeeds, and the table with the levels that it has added. -/
def page_table_traverse (pml4 : pml_t) (mem : σ) (traverse : page_table_traverse_t) (addr : Nat) (flags : pml_flags_t) :
    Bool × pml_t × σ × page_table_traverse_t :=
  let newIdx3 := PML_ADDR_TO_INDEX addr 4
  let newIdx2 := PML_ADDR_TO_INDEX addr 3
  let newIdx1 := PML_ADDR_TO_INDEX addr 2
  let levelFlags := flags ||| PML_WRITE ||| PML_USER
  let hit := traverse.pml3Valid && traverse.oldIdx3 == newIdx3
  match traverseLevel env hit pml4 mem newIdx3 (levelFlags &&& ~~~PML_GLOBAL) with
  | (none, mem) => (false, pml4, mem, traverse)
  | (some pml4, mem) =>
    let traverse := if !hit then { traverse with oldIdx3 := newIdx3, pml2Valid := false } else traverse
    let hit := traverse.pml2Valid && traverse.oldIdx2 == newIdx2
    match traverseLevel env hit (pml4.next newIdx3) mem newIdx2 levelFlags with
    | (none, mem) => (false, pml4, mem, traverse)
    | (some pml3, mem) =>
      let traverse := if !hit then { traverse with oldIdx2 := newIdx2, pml1Valid := false } else traverse
      let hit := traverse.pml1Valid && traverse.oldIdx1 == newIdx1
      match traverseLevel env hit (pml3.next newIdx2) mem newIdx1 levelFlags with
      | (none, mem) => (false, pml4.setNext newIdx3 pml3, mem, traverse)
      | (some pml2, mem) =>
        (true, pml4.setNext newIdx3 (pml3.setNext newIdx2 pml2), mem,
          if !hit then { traverse with oldIdx1 := newIdx1 } else traverse)

/-- `*traverse.entry`: the entry for `addr` in a table of level `n + 1`. -/
def entryAt (addr : Nat) : Nat → pml_t → pml_entry_t
  | 0, pml => pml.entry (PML_ADDR_TO_INDEX addr 1)
  | n + 1, pml => entryAt addr n (pml.next (PML_ADDR_TO_INDEX addr (n + 2)))

/-- `*traverse.entry = e`. -/
def setEntryAt (addr : Nat) (e : pml_entry_t) : Nat → pml_t → pml_t
  | 0, pml => pml.set (PML_ADDR_TO_INDEX addr 1) e (pml.next (PML_ADDR_TO_INDEX addr 1))
  | n + 1, pml =>
    pml.setNext (PML_ADDR_TO_INDEX addr (n + 2)) (setEntryAt addr e n (pml.next (PML_ADDR_TO_INDEX addr (n + 2))))

/-- The addresses of `amount` pages from `addr` on. -/
def pageAddrs (addr amount : Nat) : List Nat := (List.range amount).map fun i => (addr + i * PAGE_SIZE) % 2 ^ 64

/-! ## Questions about a range

`page_table_traverse` with `PML_NONE` adds no level and allocates nothing. -/

def page_table_is_unmapped_loop (pml4 : pml_t) (mem : σ) : page_table_traverse_t → List Nat → Bool
  | _, [] => true
  | traverse, addr :: rest =>
    match page_table_traverse env pml4 mem traverse addr PML_NONE with
    | (false, _, _, traverse) => page_table_is_unmapped_loop pml4 mem traverse rest
    | (true, _, _, traverse) =>
      if present (entryAt addr 3 pml4) then false else page_table_is_unmapped_loop pml4 mem traverse rest

def page_table_is_unmapped (pml4 : pml_t) (mem : σ) (addr amount : Nat) : Bool :=
  page_table_is_unmapped_loop env pml4 mem PAGE_TABLE_TRAVERSE_CREATE (pageAddrs addr amount)

def page_table_is_pinned_loop (pml4 : pml_t) (mem : σ) : page_table_traverse_t → List Nat → Bool
  | _, [] => false
  | traverse, addr :: rest =>
    match page_table_traverse env pml4 mem traverse addr PML_NONE with
    | (false, _, _, traverse) => page_table_is_pinned_loop pml4 mem traverse rest
    | (true, _, _, traverse) =>
      if !present (entryAt addr 3 pml4) then page_table_is_pinned_loop pml4 mem traverse rest
      else if pinned (entryAt addr 3 pml4) then true
      else page_table_is_pinned_loop pml4 mem traverse rest

def page_table_is_pinned (pml4 : pml_t) (mem : σ) (addr amount : Nat) : Bool :=
  page_table_is_pinned_loop env pml4 mem PAGE_TABLE_TRAVERSE_CREATE (pageAddrs addr amount)

def page_table_collect_callbacks_loop (pml4 : pml_t) (mem : σ) :
    page_table_traverse_t → List Nat → (Nat → Nat) → Nat → Nat
  | _, [], callbacks => callbacks
  | traverse, addr :: rest, callbacks =>
    match page_table_traverse env pml4 mem traverse addr PML_NONE with
    | (false, _, _, traverse) => page_table_collect_callbacks_loop pml4 mem traverse rest callbacks
    | (true, _, _, traverse) =>
      if !present (entryAt addr 3 pml4) then page_table_collect_callbacks_loop pml4 mem traverse rest callbacks
      else
        let callbackId := callbackId (entryAt addr 3 pml4)
        if callbackId ≠ PML_CALLBACK_NONE then
          page_table_collect_callbacks_loop pml4 mem traverse rest
            (Function.update callbacks callbackId (callbacks callbackId + 1))
        else page_table_collect_callbacks_loop pml4 mem traverse rest callbacks

/-- How many pages of the range have each callback ID. -/
def page_table_collect_callbacks (pml4 : pml_t) (mem : σ) (addr amount : Nat) (callbacks : Nat → Nat) : Nat → Nat :=
  page_table_collect_callbacks_loop env pml4 mem PAGE_TABLE_TRAVERSE_CREATE (pageAddrs addr amount) callbacks

/-! ## Mapping -/

/-- The loop of `page_table_map` and `page_table_map_pages`, over the pages and
their frames; `false` is `ERR`. -/
def mapLoop (flags : pml_flags_t) (callbackId : Nat) :
    pml_t → σ → page_table_traverse_t → List (Nat × Nat) → Bool × pml_t × σ
  | pml4, mem, _, [] => (true, pml4, mem)
  | pml4, mem, traverse, (addr, pfn) :: rest =>
    match page_table_traverse env pml4 mem traverse addr flags with
    | (false, pml4, mem, _) => (false, pml4, mem)
    | (true, pml4, mem, traverse) =>
      if present (entryAt addr 3 pml4) then (false, pml4, mem)
      else
        mapLoop flags callbackId (setEntryAt addr (setCallbackId (setPfn flags pfn) callbackId) 3 pml4) mem
          traverse rest

def page_table_map (pml4 : pml_t) (mem : σ) (addr phys amount : Nat) (flags : pml_flags_t) (callbackId : Nat) :
    Bool × pml_t × σ :=
  if !present flags then (false, pml4, mem)
  else
    mapLoop env flags callbackId pml4 mem PAGE_TABLE_TRAVERSE_CREATE
      ((pageAddrs addr amount).zip ((pageAddrs phys amount).map (· / PAGE_SIZE)))

def page_table_map_pages (pml4 : pml_t) (mem : σ) (addr : Nat) (pfns : Nat → Nat) (amount : Nat) (flags : pml_flags_t)
    (callbackId : Nat) : Bool × pml_t × σ :=
  if !present flags then (false, pml4, mem)
  else
    mapLoop env flags callbackId pml4 mem PAGE_TABLE_TRAVERSE_CREATE
      ((pageAddrs addr amount).zip ((List.range amount).map pfns))

def page_table_unmap_loop (mem : σ) : pml_t → page_table_traverse_t → List Nat → pml_t
  | pml4, _, [] => pml4
  | pml4, traverse, addr :: rest =>
    match page_table_traverse env pml4 mem traverse addr PML_NONE with
    | (false, _, _, traverse) => page_table_unmap_loop mem pml4 traverse rest
    | (true, _, _, traverse) =>
      if !present (entryAt addr 3 pml4) then page_table_unmap_loop mem pml4 traverse rest
      else page_table_unmap_loop mem (setEntryAt addr (clearPresent (entryAt addr 3 pml4)) 3 pml4) traverse rest

/-- The TLB is not part of the model. -/
def page_table_unmap (pml4 : pml_t) (mem : σ) (addr amount : Nat) : pml_t :=
  page_table_unmap_loop env mem pml4 PAGE_TABLE_TRAVERSE_CREATE (pageAddrs addr amount)

/-- The flags are an argument of the loop: it adds `PML_OWNED` to them at the
first owned page. -/
def page_table_set_flags_loop (mem : σ) : pml_t → page_table_traverse_t → pml_flags_t → List Nat → Bool × pml_t
  | pml4, _, _, [] => (true, pml4)
  | pml4, traverse, flags, addr :: rest =>
    match page_table_traverse env pml4 mem traverse addr PML_NONE with
    | (false, _, _, traverse) => page_table_set_flags_loop mem pml4 traverse flags rest
    | (true, _, _, traverse) =>
      let entry := entryAt addr 3 pml4
      if !present entry then (false, pml4)
      else
        let flags := if owned entry then flags ||| PML_OWNED else flags
        page_table_set_flags_loop mem
          (setEntryAt addr ((entry &&& ~~~PML_FLAGS_MASK) ||| (flags &&& PML_FLAGS_MASK)) 3 pml4) traverse flags rest

def page_table_set_flags (pml4 : pml_t) (mem : σ) (addr amount : Nat) (flags : pml_flags_t) : Bool × pml_t :=
  page_table_set_flags_loop env mem pml4 PAGE_TABLE_TRAVERSE_CREATE flags (pageAddrs addr amount)

/-! ## Clearing -/

def PML_PAGE_BUFFER_SIZE : Nat := 64

def page_table_page_buffer_push (mem : σ) (buffer : List Nat) (pfn : Nat) : List Nat × σ :=
  let buffer := buffer ++ [pfn]
  if buffer.length ≥ PML_PAGE_BUFFER_SIZE then ([], env.freePages mem buffer) else (buffer, mem)

def page_table_page_buffer_flush (mem : σ) (buffer : List Nat) : σ :=
  if buffer.length > 0 then env.freePages mem buffer else mem

def pml_is_empty (pml : pml_t) : Bool := (List.range PML_INDEX_AMOUNT).all fun i => pml.entry i = 0#64

/-- Frees the tables that `prev` went through, `traverse` did not, and that are
empty. A table is freed as the frame its entry names, and the entry is cleared. -/
def page_table_clear_pml1_pml2_pml3 (pml4 : pml_t) (mem : σ) (prev traverse : page_table_traverse_t)
    (buffer : List Nat) : pml_t × σ × List Nat :=
  let pml3 := pml4.next prev.oldIdx3
  let pml2 := pml3.next prev.oldIdx2
  let pml1 := pml2.next prev.oldIdx1
  let other3 := prev.oldIdx3 != traverse.oldIdx3
  let other2 := other3 || prev.oldIdx2 != traverse.oldIdx2
  let other1 := other2 || prev.oldIdx1 != traverse.oldIdx1
  if prev.pml1Valid && other1 && pml_is_empty pml1 then
    let (buffer, mem) := page_table_page_buffer_push env mem buffer (pfn (pml2.entry prev.oldIdx1))
    let pml2 := pml2.set prev.oldIdx1 0#64 .null
    if prev.pml2Valid && other2 && pml_is_empty pml2 then
      let (buffer, mem) := page_table_page_buffer_push env mem buffer (pfn (pml3.entry prev.oldIdx2))
      let pml3 := pml3.set prev.oldIdx2 0#64 .null
      if prev.pml3Valid && other3 && pml_is_empty pml3 then
        let (buffer, mem) := page_table_page_buffer_push env mem buffer (pfn (pml4.entry prev.oldIdx3))
        (pml4.set prev.oldIdx3 0#64 .null, mem, buffer)
      else (pml4.setNext prev.oldIdx3 pml3, mem, buffer)
    else (pml4.setNext prev.oldIdx3 (pml3.setNext prev.oldIdx2 pml2), mem, buffer)
  else (pml4, mem, buffer)

def page_table_clear_loop :
    pml_t → σ → page_table_traverse_t → page_table_traverse_t → List Nat → List Nat → pml_t × σ
  | pml4, mem, prev, traverse, buffer, [] =>
    let (pml4, mem, buffer) := page_table_clear_pml1_pml2_pml3 env pml4 mem prev traverse buffer
    (pml4, page_table_page_buffer_flush env mem buffer)
  | pml4, mem, prev, traverse, buffer, addr :: rest =>
    let (pml4, mem, buffer) := page_table_clear_pml1_pml2_pml3 env pml4 mem prev traverse buffer
    match page_table_traverse env pml4 mem traverse addr PML_NONE with
    | (false, _, _, traverse) =>
      page_table_clear_loop pml4 mem { prev with pml1Valid := false, pml2Valid := false, pml3Valid := false } traverse
        buffer rest
    | (true, _, _, traverse) =>
      let entry := entryAt addr 3 pml4
      if present entry then page_table_clear_loop pml4 mem traverse traverse buffer rest
      else
        let (buffer, mem) :=
          if owned entry then page_table_page_buffer_push env mem buffer (pfn entry) else (buffer, mem)
        page_table_clear_loop (setEntryAt addr 0#64 3 pml4) mem traverse traverse buffer rest

def page_table_clear (pml4 : pml_t) (mem : σ) (addr amount : Nat) : pml_t × σ :=
  page_table_clear_loop env pml4 mem PAGE_TABLE_TRAVERSE_CREATE PAGE_TABLE_TRAVERSE_CREATE [] (pageAddrs addr amount)

end Patchwork.Paging
