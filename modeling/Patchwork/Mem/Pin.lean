import Patchwork.Mem.Space
/-!
# Pinning (`kernel/mem/space.c`)

A pinned page cannot be unmapped. How often it is pinned is kept in two places:
a bit of its entry in the page table for the first time, and from the second
time on an entry of the map `pinnedPages`, which may remain with the count 1.

`space_pin_terminated` reads the memory it pins; the bytes are an argument.
-/

namespace Patchwork.Paging

namespace Entry

/-- `entry->pinned = pinned`. -/
def setPinned (entry : pml_entry_t) (pinned : Bool) : pml_entry_t := Lib.setField entry 10 1 pinned.toNat

end Entry

variable {σ : Type} (env : Env σ)

def page_table_is_mapped_loop (pml4 : pml_t) (mem : σ) : page_table_traverse_t → List Nat → Bool
  | _, [] => true
  | traverse, addr :: rest =>
    match page_table_traverse env pml4 mem traverse addr PML_NONE with
    | (false, _, _, _) => false
    | (true, _, _, traverse) =>
      if !Entry.present (entryAt addr 3 pml4) then false else page_table_is_mapped_loop pml4 mem traverse rest

def page_table_is_mapped (pml4 : pml_t) (mem : σ) (addr amount : Nat) : Bool :=
  page_table_is_mapped_loop env pml4 mem PAGE_TABLE_TRAVERSE_CREATE (pageAddrs addr amount)

end Patchwork.Paging

namespace Patchwork.Space

open Paging

variable {σ τ : Type} (env : Env σ)

structure stack_pointer_t where
  top : Nat
  bottom : Nat

def stack_pointer_is_in_stack (stack : stack_pointer_t) (addr length : Nat) : Bool :=
  let endAddr := (addr + length) % 2 ^ 64
  if endAddr < addr then false else addr ≥ stack.bottom && endAddr < stack.top

/-- `userStack == NULL || !stack_pointer_is_in_stack(...)` is its negation. -/
def isInUserStack (userStack : Option stack_pointer_t) (addr length : Nat) : Bool :=
  match userStack with
  | none => false
  | some stack => stack_pointer_is_in_stack stack addr length

/-- The flags of a page of a user stack. -/
def stackFlags : pml_flags_t := PML_PRESENT ||| PML_USER ||| PML_WRITE ||| PML_OWNED

def space_populate_user_region_loop : List Nat → space_t σ τ → Bool × space_t σ τ
  | [], space => (true, space)
  | addr :: rest, space =>
    if page_table_is_mapped env space.pageTable space.mem addr 1 then space_populate_user_region_loop rest space
    else
      match env.allocPages space.mem 1 with
      | (none, mem) => (false, { space with mem := mem })
      | (some pfns, mem) =>
        match page_table_map env space.pageTable mem addr (pfns 0 * PAGE_SIZE % 2 ^ 64) 1 stackFlags PML_CALLBACK_NONE with
        | (false, pageTable, mem) => (false, { space with pageTable := pageTable, mem := env.freePages mem [pfns 0] })
        | (true, pageTable, mem) => space_populate_user_region_loop rest { space with pageTable := pageTable, mem := mem }

/-- `false` is `ERR`. -/
def space_populate_user_region (space : space_t σ τ) (buffer pageAmount : Nat) : Bool × space_t σ τ :=
  space_populate_user_region_loop env (pageAddrs buffer pageAmount) space

/-- The pages of a region that is in the user's stack are mapped first. -/
def populateUnless (mapped : Bool) (space : space_t σ τ) (buffer pageAmount : Nat) : Bool × space_t σ τ :=
  if mapped then (true, space) else space_populate_user_region env space buffer pageAmount

/-! ## Depths -/

/-- Write the entry of the page of `addr`. -/
def setPinned (space : space_t σ τ) (addr : Nat) (pinned : Bool) : space_t σ τ :=
  { space with
    pageTable := setEntryAt addr (Entry.setPinned (entryAt addr 3 space.pageTable) pinned) 3 space.pageTable }

def setPinCount (space : space_t σ τ) (addr : Nat) (pinCount : Option Nat) : space_t σ τ :=
  { space with pinnedPages := Function.update space.pinnedPages addr pinCount }

/-- The loop body of `space_pin_depth_dec` once the entry is found. -/
def pinDec (space : space_t σ τ) (addr : Nat) : space_t σ τ :=
  let entry := entryAt addr 3 space.pageTable
  if !Entry.present entry || !Entry.pinned entry then space
  else
    match space.pinnedPages addr with
    | none => setPinned space addr false
    | some pinCount =>
      let pinCount := (pinCount + 2 ^ 64 - 1) % 2 ^ 64
      if pinCount = 0 then setPinned (setPinCount space addr none) addr false
      else setPinCount space addr (some pinCount)

def space_pin_depth_dec_loop : page_table_traverse_t → List Nat → space_t σ τ → space_t σ τ
  | _, [], space => space
  | traverse, addr :: rest, space =>
    match page_table_traverse env space.pageTable space.mem traverse addr PML_NONE with
    | (false, _, _, traverse) => space_pin_depth_dec_loop traverse rest space
    | (true, _, _, traverse) => space_pin_depth_dec_loop traverse rest (pinDec space addr)

def space_pin_depth_dec (space : space_t σ τ) (address amount : Nat) : space_t σ τ :=
  space_pin_depth_dec_loop env PAGE_TABLE_TRAVERSE_CREATE (pageAddrs (ROUND_DOWN address PAGE_SIZE) amount) space

/-- The size of a `space_pinned_page_t`. -/
def pinnedPageSize : Nat := 40

/-- The loop body of `space_pin_depth_inc` once the entry is found; `false` if
there is no memory for an entry of the map. `map_insert` fails for want of memory
only, since the key is new. -/
def pinInc (space : space_t σ τ) (addr : Nat) : Bool × space_t σ τ :=
  let entry := entryAt addr 3 space.pageTable
  if !Entry.present entry then (true, space)
  else if !Entry.pinned entry then (true, setPinned space addr true)
  else
    match space.pinnedPages addr with
    | some pinCount => (true, setPinCount space addr (some ((pinCount + 1) % 2 ^ 64)))
    | none =>
      match env.malloc space.mem pinnedPageSize with
      | (false, mem) => (false, { space with mem := mem })
      | (true, mem) =>
        match env.malloc mem 0 with
        | (false, mem) => (false, { space with mem := mem })
        | (true, mem) => (true, setPinCount { space with mem := mem } addr (some 2))

/-- `i` pages are done; `false` is `ERR`. -/
def space_pin_depth_inc_loop (address : Nat) : Nat → page_table_traverse_t → List Nat → space_t σ τ → Bool × space_t σ τ
  | _, _, [], space => (true, space)
  | i, traverse, addr :: rest, space =>
    match page_table_traverse env space.pageTable space.mem traverse addr PML_NONE with
    | (false, _, _, traverse) => space_pin_depth_inc_loop address (i + 1) traverse rest space
    | (true, _, _, traverse) =>
      match pinInc env space addr with
      | (false, space) => (false, space_pin_depth_dec env space address i)
      | (true, space) => space_pin_depth_inc_loop address (i + 1) traverse rest space

def space_pin_depth_inc (space : space_t σ τ) (address amount : Nat) : Bool × space_t σ τ :=
  let address := ROUND_DOWN address PAGE_SIZE
  space_pin_depth_inc_loop env address 0 PAGE_TABLE_TRAVERSE_CREATE (pageAddrs address amount) space

/-! ## Pinning and unpinning -/

def space_pin (space : space_t σ τ) (buffer length : Nat) (userStack : Option stack_pointer_t) :
    Except errno_t Nat × space_t σ τ :=
  if buffer = 0 ∧ length ≠ 0 then (.error .EINVAL, space)
  else if length = 0 then (.ok 0, space)
  else if (buffer + length) % 2 ^ 64 < buffer then (.error .EOVERFLOW, space)
  else
    let (buffer, length) := space_align_region buffer length
    let pageAmount := BYTES_TO_PAGES length
    let mapped := page_table_is_mapped env space.pageTable space.mem buffer pageAmount
    if !mapped && !isInUserStack userStack buffer length then (.error .EFAULT, space)
    else
      match populateUnless env mapped space buffer pageAmount with
      | (false, space) => (.error .ENOMEM, space)
      | (true, space) =>
        match space_pin_depth_inc env space buffer pageAmount with
        | (false, space) => (.error .ENOMEM, space)
        | (true, space) => (.ok 0, space)

/-- The terminator was found and the result is known, or the search goes on. -/
inductive Scan where
  | found (result : Nat)
  | more (current terminatorMatchedBytes : Nat)

/-- The scan of a page for a terminator of one byte, `n` bytes before `scanEnd`. -/
def scanBytes (bytes : Nat → Nat) (term address scanEnd : Nat) : Nat → Nat → Scan
  | 0, _ => .more scanEnd 0
  | n + 1, scanAddr =>
    if bytes scanAddr = term then .found ((scanAddr + 2 ^ 64 - address + 1) % 2 ^ 64)
    else scanBytes bytes term address scanEnd n (scanAddr + 1)

/-- The scan of a page for a terminator of more bytes; `none` if it goes on for
`fuel` bytes. -/
def scanObjects (bytes terminator : Nat → Nat) (objectSize address scanEnd : Nat) : Nat → Nat → Nat → Option Scan
  | 0, _, _ => none
  | fuel + 1, scanAddr, terminatorMatchedBytes =>
    if scanAddr < scanEnd then
      if bytes scanAddr = terminator terminatorMatchedBytes then
        if terminatorMatchedBytes + 1 = objectSize then some (.found ((scanAddr + 2 ^ 64 - address + 1) % 2 ^ 64))
        else scanObjects bytes terminator objectSize address scanEnd fuel (scanAddr + 1) (terminatorMatchedBytes + 1)
      else
        scanObjects bytes terminator objectSize address scanEnd fuel
          ((scanAddr + 2 ^ 64 - terminatorMatchedBytes + objectSize) % 2 ^ 64) 0
    else some (.more scanAddr terminatorMatchedBytes)

/-- More rounds than there are addresses and objects to be in. -/
def scanFuel : Nat := 2 ^ 128

/-- The scan of a page from `current` on. -/
def scanPage (bytes terminator : Nat → Nat) (objectSize address scanEnd current terminatorMatchedBytes : Nat) :
    Option Scan :=
  if objectSize = 1 then some (scanBytes bytes (terminator 0) address scanEnd (scanEnd - current) current)
  else scanObjects bytes terminator objectSize address scanEnd scanFuel current terminatorMatchedBytes

/-- Pins the page of `current`, after mapping it if it is in the user's stack. -/
def pinPage (userStack : Option stack_pointer_t) (current : Nat) (space : space_t σ τ) :
    Except errno_t Unit × space_t σ τ :=
  let mapped := page_table_is_mapped env space.pageTable space.mem current 1
  if !mapped && !isInUserStack userStack current 1 then (.error .EFAULT, space)
  else
    match populateUnless env mapped space (ROUND_DOWN current PAGE_SIZE) 1 with
    | (false, space) => (.error .ENOMEM, space)
    | (true, space) =>
      match space_pin_depth_inc env space current 1 with
      | (false, space) => (.error .ENOMEM, space)
      | (true, space) => (.ok (), space)

/-- The pages from `current` on, with `pinnedPages` pinned before; `none` if it
goes on for `fuel` pages. Where no terminator is found `errno` is not set, which
is `EOK` here. -/
def space_pin_terminated_loop (bytes terminator : Nat → Nat) (objectSize address stop : Nat)
    (userStack : Option stack_pointer_t) : Nat → Nat → Nat → Nat → space_t σ τ → Call σ τ Nat
  | 0, _, _, _, _ => none
  | fuel + 1, current, terminatorMatchedBytes, pinnedPages, space =>
    if current < stop then
      match pinPage env userStack current space with
      | (.error err, space) => some (.error err, space_pin_depth_dec env space address pinnedPages)
      | (.ok _, space) =>
        let scanEnd := min (ROUND_UP ((current + 1) % 2 ^ 64) PAGE_SIZE) stop
        match scanPage bytes terminator objectSize address scanEnd current terminatorMatchedBytes with
        | none => none
        | some (.found result) => some (.ok result, space)
        | some (.more current terminatorMatchedBytes) =>
          space_pin_terminated_loop bytes terminator objectSize address stop userStack fuel current
            terminatorMatchedBytes (pinnedPages + 1) space
    else some (.error .EOK, space_pin_depth_dec env space address pinnedPages)

/-- `terminator` is not `NULL`. -/
def space_pin_terminated (space : space_t σ τ) (address : Nat) (bytes terminator : Nat → Nat) (objectSize maxCount : Nat)
    (userStack : Option stack_pointer_t) : Call σ τ Nat :=
  if address = 0 ∨ objectSize = 0 ∨ maxCount = 0 then some (.error .EINVAL, space)
  else
    let stop := (address + maxCount * objectSize) % 2 ^ 64
    if stop < address then some (.error .EOVERFLOW, space)
    else space_pin_terminated_loop env bytes terminator objectSize address stop userStack scanFuel address 0 0 space

def space_unpin (space : space_t σ τ) (address length : Nat) : space_t σ τ :=
  if address = 0 ∧ length ≠ 0 then space
  else if length = 0 then space
  else if (address + length) % 2 ^ 64 < address then space
  else
    let (address, length) := space_align_region address length
    space_pin_depth_dec env space address (BYTES_TO_PAGES length)

end Patchwork.Space
