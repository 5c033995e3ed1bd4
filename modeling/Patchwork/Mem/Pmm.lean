import Patchwork.Utils.Bitmap
/-!
# The physical memory manager (`kernel/mem/pmm.c`)

Pages are known by their page frame number. Free pages above 64 MiB form a
stack that is kept in the free pages themselves: the page at its top holds the
numbers of up to `FREE_PAGE_MAX` other free pages and a link to the next such
page. Free pages below are the clear bits of a bitmap. Every function runs under
one lock, so each is one step.

`failed` is set when an `assert` does not hold or `NULL` is dereferenced; the
functions go on as they do without asserts. A function that calls
`bitmap_find_clear_region_and_set` returns `none` when its loop never ends.
-/

namespace Patchwork

open Function

def PAGE_SIZE : Nat := 4096

def BYTES_TO_PAGES (amount : Nat) : Nat := (amount + PAGE_SIZE - 1) % 2 ^ 64 / PAGE_SIZE

namespace Pmm

def UINT16_MAX : Nat := 2 ^ 16 - 1

/-- `CONFIG_PMM_BITMAP_MAX_ADDR / PAGE_SIZE`. -/
def BITMAP_PAGES : Nat := 0x4000000 / PAGE_SIZE

/-- The size of a page number is eight bytes. -/
def FREE_PAGE_MAX : Nat := PAGE_SIZE / 8 - 1

def ERR : Nat := 2 ^ 64 - 1

/-- A page number that a function returns; `ERR` stands for none. -/
def pfnOf (pfn : Nat) : Option Nat := if pfn = ERR then none else some pfn

structure page_stack_t where
  next : Option Nat
  pages : Nat → Nat

/-- The variables of `pmm.c`, and the memory of pages as `page_stack_t`. -/
structure State where
  ref : Nat → Nat
  stack : Option Nat
  location : Nat
  bitmap : bitmap_t
  avail : Nat
  memory : Nat → page_stack_t
  failed : Bool

namespace State

def assert (s : State) (b : Bool) : State := { s with failed := s.failed || !b }

/-- `pages[pfn].ref = v`. -/
def setRef (s : State) (pfn v : Nat) : State := { s with ref := update s.ref pfn v }

end State

/-! ## The free pages -/

def pmm_stack_push (s : State) (pfn : Nat) : State :=
  match s.stack with
  | some top =>
    if s.location = 0 then
      { s with
        memory := update s.memory pfn { s.memory pfn with next := some top }
        stack := some pfn
        location := FREE_PAGE_MAX }
    else
      { s with
        location := s.location - 1
        memory := update s.memory top
          { s.memory top with pages := update (s.memory top).pages (s.location - 1) pfn } }
  | none =>
    { s with
      memory := update s.memory pfn { s.memory pfn with next := none }
      stack := some pfn
      location := FREE_PAGE_MAX }

def pmm_stack_pop (s : State) : Option Nat × State :=
  if s.location = FREE_PAGE_MAX then
    match s.stack with
    | none => (none, s)
    | some page =>
      let next := (s.memory page).next
      (pfnOf page, { s with stack := next, location := if next = none then FREE_PAGE_MAX else 0 })
  else
    match s.stack with
    | none => (none, s.assert false)
    | some top => (pfnOf ((s.memory top).pages s.location), { s with location := s.location + 1 })

def pmm_bitmap_set (s : State) (count maxPfn alignPfn : Nat) : Option (Option Nat × State) :=
  let alignPfn := max alignPfn 1
  let maxPfn := min maxPfn BITMAP_PAGES
  (bitmap_find_clear_region_and_set s.bitmap 0 maxPfn count alignPfn).map fun (map, index) =>
    (if index = s.bitmap.length then none else pfnOf index, { s with bitmap := map })

def pmm_bitmap_clear (s : State) (pfn pageAmount : Nat) : State :=
  { s with bitmap := bitmap_clear_range s.bitmap pfn ((pfn + pageAmount) % 2 ^ 64) }

/-- Back to the stack or to the bitmap, as the source does in two places. -/
def giveBack (s : State) (pfn : Nat) : State :=
  if pfn ≥ BITMAP_PAGES then pmm_stack_push s pfn else pmm_bitmap_clear s pfn 1

/-- From the stack, or else from the bitmap, as the source does in two places. -/
def takeFree (s : State) : Option (Option Nat × State) :=
  match pmm_stack_pop s with
  | (some pfn, s) => some (some pfn, s)
  | (none, s) => pmm_bitmap_set s 1 BITMAP_PAGES 1

/-- `assert(page->ref == 0); page->ref = 1`. -/
def claim (s : State) (pfn : Nat) : State := (s.assert (s.ref pfn = 0)).setRef pfn 1

/-- The page numbers `pfn + i` for `i` below `count`. -/
def region (pfn count : Nat) : List Nat := (List.range count).map fun i => (pfn + i) % 2 ^ 64

/-! ## Allocation -/

def pmm_alloc (s : State) : Option (Option Nat × State) :=
  (takeFree s).map fun (pfn, s) =>
    match pfn with
    | none => (none, s)
    | some pfn =>
      let s := claim s pfn
      (some pfn, { s with avail := (s.avail + 2 ^ 64 - 1) % 2 ^ 64 })

/-- The first loop of `pmm_alloc_pages`, for `n` more pages; `pfns` are the pages
found so far, and they go back when there is no further one. -/
def pmm_alloc_pages_loop : Nat → State → List Nat → Option (Option (List Nat) × State)
  | 0, s, pfns => some (some pfns, s)
  | n + 1, s, pfns =>
    match takeFree s with
    | none => none
    | some (none, s) => some (none, pfns.foldl giveBack s)
    | some (some pfn, s) => pmm_alloc_pages_loop n s (pfns ++ [pfn])

def pmm_alloc_pages (s : State) (count : Nat) : Option (Option (List Nat) × State) :=
  (pmm_alloc_pages_loop count s []).map fun (pfns, s) =>
    match pfns with
    | none => (none, s)
    | some pfns =>
      let s := pfns.foldl claim s
      (some pfns, { s with avail := (s.avail + 2 ^ 64 - count) % 2 ^ 64 })

def pmm_alloc_bitmap (s : State) (count maxPfn alignPfn : Nat) : Option (Option Nat × State) :=
  (pmm_bitmap_set s count maxPfn alignPfn).map fun (pfn, s) =>
    match pfn with
    | none => (none, s)
    | some pfn =>
      let s := (region pfn count).foldl claim s
      (some pfn, { s with avail := (s.avail + 2 ^ 64 - count) % 2 ^ 64 })

/-! ## References -/

def pmm_free_unlocked (s : State) (pfn : Nat) : State :=
  let s := s.assert (s.ref pfn > 0)
  let ref := (s.ref pfn + 2 ^ 16 - 1) % 2 ^ 16
  let s := s.setRef pfn ref
  if ref > 0 then s
  else
    let s := giveBack s pfn
    { s with avail := (s.avail + 1) % 2 ^ 64 }

def pmm_free_region_unlocked (s : State) (pfn count : Nat) : State := (region pfn count).foldl pmm_free_unlocked s

def pmm_free (s : State) (pfn : Nat) : State := pmm_free_unlocked s pfn

def pmm_free_pages (s : State) (pfns : List Nat) : State := pfns.foldl pmm_free_unlocked s

def pmm_free_region (s : State) (pfn count : Nat) : State := pmm_free_region_unlocked s pfn count

/-- `pages[pfn].ref--`. -/
def refDec (s : State) (pfn : Nat) : State := s.setRef pfn ((s.ref pfn + 2 ^ 16 - 1) % 2 ^ 16)

/-- The loop of `pmm_ref_inc` over the pages `rest`; the pages `done` go back to
what they were when one has no reference, or no room for another. -/
def pmm_ref_inc_loop : List Nat → List Nat → State → Bool × State
  | _, [], s => (true, s)
  | done, pfn :: rest, s =>
    if s.ref pfn = 0 ∨ s.ref pfn = UINT16_MAX then (false, done.foldl refDec s)
    else pmm_ref_inc_loop (done ++ [pfn]) rest (s.setRef pfn ((s.ref pfn + 1) % 2 ^ 16))

def pmm_ref_inc (s : State) (pfn count : Nat) : Option Nat × State :=
  match pmm_ref_inc_loop [] (region pfn count) s with
  | (true, s) => (some (s.ref pfn), s)
  | (false, s) => (none, s)

end Pmm

end Patchwork
