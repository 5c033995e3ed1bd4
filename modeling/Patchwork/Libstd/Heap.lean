import Patchwork.Lib.Tiling
import Patchwork.Mem.Pmm
/-!
# The heap of the standard library

`common/heap.c`, and the part of `realloc` that splits and merges. A block is known
by the address of its header. `heapList` has the blocks in the order of the list,
and the free lists have the addresses of free blocks; the links of these lists are
not modelled on their own. The list is a ring through its head, so that the last
block has a `next` and the first one a `prev` all the same: `CONTAINER_OF_SAFE`
turns the head into a header that lies over other static data, and not into `NULL`.
That header is `ListHead`.

An operation is `none` if it does not return: an assertion fails, the loop of
`_heap_block_new` does not end, or the list head is taken for a free block.

`mem` has the bytes of the memory. A header that is written leaves the bytes of
some `image` where it lies. `runs` and `large` keep the memory that
`_heap_map_memory` has returned: for the list, and for blocks of their own.
-/

namespace Patchwork.Heap

open Lib

def HEAP_ALIGNMENT : Nat := 64
def HEAP_LARGE_ALLOC_THRESHOLD : Nat := PAGE_SIZE * 4
def HEAP_NUM_BINS : Nat := HEAP_LARGE_ALLOC_THRESHOLD / HEAP_ALIGNMENT

/-- `sizeof(_heap_header_t)`. -/
def HEADER_SIZE : Nat := 64

def ERR : Nat := 2 ^ 64 - 1

/-- The flags of a block and the size of its data. -/
structure heap_header_t where
  allocated : Bool
  mapped : Bool
  zeroed : Bool
  size : Nat
deriving Repr, DecidableEq

/-- The static data that `CONTAINER_OF_SAFE` takes for a header at the ends of the
list. The blocks fill whole pages, so it does not look like a free block next to
one of them. -/
structure ListHead where
  addr : Nat
  allocated : Bool
  size : Nat
  apart : allocated = false → addr % PAGE_SIZE ≠ 0 ∧ (addr + HEADER_SIZE + size) % PAGE_SIZE ≠ 0

structure Env where
  head : ListHead
  /-- The bytes of a header. -/
  image : Nat → heap_header_t → Nat → UInt8

structure heap_t where
  header : Nat → heap_header_t
  heapList : List Nat
  freeLists : Nat → List Nat
  freeBitmap : bitmap_t
  mem : Nat → UInt8
  runs : List Segment
  large : List Nat

variable (env : Env)

namespace heap_t

def size (h : heap_t) (a : Nat) : Nat := (h.header a).size

/-- The header and the data of a block. -/
def segment (h : heap_t) (a : Nat) : Segment := (a, HEADER_SIZE + h.size a)

def setHeader (h : heap_t) (a : Nat) (hd : heap_header_t) : heap_t :=
  { h with
    header := Function.update h.header a hd
    mem := fun x => if a ≤ x ∧ x < a + HEADER_SIZE then env.image a hd x else h.mem x }

end heap_t

/-! ## Lists -/

/-- The entry after `a`, or `none` for the head of the list. -/
def listNext : List Nat → Nat → Option Nat
  | [], _ => none
  | x :: l, a => if x = a then l.head? else listNext l a

def listPrev : List Nat → Nat → Option Nat
  | [], _ => none
  | [_], _ => none
  | x :: y :: l, a => if y = a then some x else listPrev (y :: l) a

def list_append : List Nat → (prev entry : Nat) → List Nat
  | [], _, _ => []
  | x :: l, prev, entry => if x = prev then x :: entry :: l else x :: list_append l prev entry

/-! ## Free lists -/

def heap_get_bin_index (size : Nat) : Nat :=
  if size > HEAP_LARGE_ALLOC_THRESHOLD then ERR
  else if size < HEAP_ALIGNMENT then 0
  else size / HEAP_ALIGNMENT - 1

def heap_add_to_free_list (h : heap_t) (block : Nat) : heap_t :=
  let binIndex := heap_get_bin_index (h.size block)
  if binIndex = ERR then h
  else
    { h with
      freeLists := Function.update h.freeLists binIndex (h.freeLists binIndex ++ [block])
      freeBitmap := bitmap_set h.freeBitmap binIndex }

/-- A free list has changed; its bit is cleared if it is empty. -/
def heap_t.shrunk (h : heap_t) (binIndex : Nat) (l : List Nat) : heap_t :=
  { h with
    freeLists := Function.update h.freeLists binIndex l
    freeBitmap := if l = [] then bitmap_clear h.freeBitmap binIndex else h.freeBitmap }

def heap_remove_from_free_list (h : heap_t) (block : Nat) : heap_t :=
  let binIndex := heap_get_bin_index (h.size block)
  if binIndex = ERR then h
  else h.shrunk binIndex ((h.freeLists binIndex).erase block)

/-! ## Freeing -/

/-- The block takes in the next one, if that is free and adjacent and the two are
not too large together. -/
def mergeNext (h : heap_t) (block : Nat) : Option Nat → Option heap_t
  | none =>
    if env.head.allocated = false ∧ block + HEADER_SIZE + h.size block = env.head.addr ∧
        (h.size block + HEADER_SIZE + env.head.size) % 2 ^ 64 ≤ HEAP_LARGE_ALLOC_THRESHOLD then none
    else some h
  | some next =>
    if (h.header next).allocated = false ∧ block + HEADER_SIZE + h.size block = next then
      let newSize := h.size block + HEADER_SIZE + h.size next
      if newSize ≤ HEAP_LARGE_ALLOC_THRESHOLD then
        let h := heap_remove_from_free_list h next
        let hd : heap_header_t :=
          { allocated := false
            mapped := false
            zeroed := (h.header block).zeroed && (h.header next).zeroed
            size := newSize }
        let h := h.setHeader env block hd
        some { h with heapList := h.heapList.erase next }
      else some h
    else some h

/-- The previous block takes in this one, in the same case. The result has the
block that is left. -/
def mergePrev (h : heap_t) (block : Nat) : Option Nat → Option (heap_t × Nat)
  | none =>
    if env.head.allocated = false ∧ (env.head.addr + HEADER_SIZE + env.head.size) % 2 ^ 64 = block ∧
        (env.head.size + HEADER_SIZE + h.size block) % 2 ^ 64 ≤ HEAP_LARGE_ALLOC_THRESHOLD then none
    else some (h, block)
  | some prev =>
    if (h.header prev).allocated = false ∧ prev + HEADER_SIZE + h.size prev = block then
      let newSize := h.size prev + HEADER_SIZE + h.size block
      if newSize ≤ HEAP_LARGE_ALLOC_THRESHOLD then
        let h := heap_remove_from_free_list h prev
        let hd : heap_header_t :=
          { allocated := false
            mapped := false
            zeroed := (h.header prev).zeroed && (h.header block).zeroed
            size := newSize }
        let h := h.setHeader env prev hd
        some ({ h with heapList := h.heapList.erase block }, prev)
      else some (h, block)
    else some (h, block)

def heap_free (h : heap_t) (block : Nat) : Option heap_t :=
  if (h.header block).mapped then
    if h.size block > HEAP_LARGE_ALLOC_THRESHOLD then some { h with large := h.large.erase block } else none
  else if h.size block ≤ HEAP_LARGE_ALLOC_THRESHOLD then do
    let h := h.setHeader env block { h.header block with allocated := false }
    let prev := listPrev h.heapList block
    let next := listNext h.heapList block
    let h ← mergeNext env h block next
    let (h, block) ← mergePrev env h block prev
    some (heap_add_to_free_list h block)
  else none

/-! ## Allocating -/

/-- The memory is page aligned and overlaps nothing that is mapped. -/
def Fresh (h : heap_t) (s : Segment) : Prop :=
  s.1 % PAGE_SIZE = 0 ∧ 0 < s.2 ∧ s.stop < 2 ^ 64 ∧ (∀ r ∈ h.runs, s.Disjoint r) ∧
    ∀ b ∈ h.large, s.Disjoint (h.segment b)

instance (h : heap_t) (s : Segment) : Decidable (Fresh h s) :=
  inferInstanceAs (Decidable (_ ∧ _ ∧ _ ∧ _ ∧ _))

/-- The answer is `NULL` or fresh memory, which is zero. -/
def heap_map_memory (h : heap_t) (size : Nat) : Option Nat → Option (heap_t × Option Nat)
  | none => some (h, none)
  | some addr =>
    if Fresh h (addr, size) then
      some ({ h with mem := fun x => if addr ≤ x ∧ x < addr + size then 0 else h.mem x }, some addr)
    else none

/-- `last->listEntry.prev`, where `none` is the list head. -/
def prevOf (l : List Nat) : Option Nat → Option Nat
  | none => l.getLast?
  | some a => listPrev l a

/-- The address that `last` is compared by. -/
def addrOf : Option Nat → Nat
  | none => env.head.addr
  | some a => a

/-- The loop of `_heap_block_new` over the ring, and where it stops. -/
def findLast (l : List Nat) (newBlock : Nat) : Nat → Option Nat → Option (Option Nat)
  | 0, _ => none
  | fuel + 1, last => if addrOf env last > newBlock then findLast l newBlock fuel (prevOf l last) else some last

/-- The insertion as the source has it; `list_last` is `NULL` for an empty list only. -/
def insertNew (fuel : Nat) (l : List Nat) (newBlock : Nat) : Option (List Nat) :=
  if l = [] then some [newBlock]
  else
    (findLast env l newBlock fuel l.getLast?).map fun
      | none => newBlock :: l
      | some last => list_append l last newBlock

/-- The length of a run of pages for a block of at least `minSize` bytes. -/
def runLength (minSize : Nat) : Nat := BYTES_TO_PAGES (max (HEADER_SIZE + minSize) PAGE_SIZE) * PAGE_SIZE

def heap_block_new (h : heap_t) (minSize : Nat) (answer : Option Nat) : Option (heap_t × Option Nat) :=
  if minSize = 0 then some (h, none)
  else
    let alignedTotalSize := runLength minSize
    match heap_map_memory h alignedTotalSize answer with
    | none => none
    | some (h, none) => some (h, none)
    | some (h, some newBlock) =>
      let hd : heap_header_t :=
        { allocated := false, mapped := false, zeroed := true, size := alignedTotalSize - HEADER_SIZE }
      let h := h.setHeader env newBlock hd
      -- once round the ring: a loop that goes on then goes on for ever
      match insertNew env (h.heapList.length + 1) h.heapList newBlock with
      | none => none
      | some l => some ({ h with heapList := l, runs := (newBlock, alignedTotalSize) :: h.runs }, some newBlock)

def heap_block_split (h : heap_t) (block newSize : Nat) : Option heap_t :=
  if newSize = 0 then some h
  else if newSize % HEAP_ALIGNMENT = 0 then
    let originalTotalSize := HEADER_SIZE + h.size block
    let newTotalSize := HEADER_SIZE + newSize
    let remainder := block + newTotalSize
    let hd : heap_header_t :=
      { allocated := false
        mapped := false
        zeroed := (h.header block).zeroed
        size := (originalTotalSize + 2 ^ 64 - newTotalSize - HEADER_SIZE) % 2 ^ 64 }
    let h := h.setHeader env remainder hd
    let h := h.setHeader env block { h.header block with size := newSize }
    let h := { h with heapList := list_append h.heapList block remainder }
    heap_free env h remainder
  else none

/-- The first block of the first free list that is not empty, from the bin of the
size on. -/
def popFree (h : heap_t) (index : Nat) : Option (heap_t × Option Nat) :=
  let freeBinIndex := bitmap_find_first_set h.freeBitmap index HEAP_NUM_BINS
  if freeBinIndex ≠ h.freeBitmap.length then
    match h.freeLists freeBinIndex with
    | [] => none
    | block :: l => some (h.shrunk freeBinIndex l, some block)
  else some (h, none)

/-- The block that was found is allocated, and what is too much is split off. -/
def takeBlock (h : heap_t) (block size : Nat) : Option (heap_t × Option Nat) :=
  let h := h.setHeader env block { h.header block with allocated := true }
  if h.size block ≥ size + HEADER_SIZE + HEAP_ALIGNMENT then
    (heap_block_split env h block size).map fun h => (h, some block)
  else some (h, some block)

/-- The length of the mapping for a large block. -/
def largeLength (size : Nat) : Nat := BYTES_TO_PAGES ((HEADER_SIZE + size) % 2 ^ 64) * PAGE_SIZE

def heap_alloc (h : heap_t) (size : Nat) (answer : Option Nat) : Option (heap_t × Option Nat) :=
  if size = 0 then some (h, none)
  else if size > HEAP_LARGE_ALLOC_THRESHOLD then
    let alignedTotalSize := largeLength size
    match heap_map_memory h alignedTotalSize answer with
    | none => none
    | some (h, none) => some (h, none)
    | some (h, some block) =>
      let hd : heap_header_t :=
        { allocated := true
          mapped := true
          zeroed := true
          size := (alignedTotalSize + 2 ^ 64 - HEADER_SIZE) % 2 ^ 64 }
      let h := h.setHeader env block hd
      some ({ h with large := block :: h.large }, some block)
  else
    let size := ROUND_UP size HEAP_ALIGNMENT
    match popFree h (heap_get_bin_index size) with
    | none => none
    | some (h, some block) => takeBlock env h block size
    | some (h, none) =>
      match heap_block_new env h size answer with
      | none => none
      | some (h, none) => some (h, none)
      | some (h, some block) => takeBlock env h block size

/-! ## Splitting and merging by `realloc` -/

/-- The rest of a block is split off if it is large enough. -/
def trim (h : heap_t) (block alignedSize : Nat) : Option heap_t :=
  if h.size block - alignedSize ≥ HEADER_SIZE + HEAP_ALIGNMENT then heap_block_split env h block alignedSize
  else some h

/-- The block takes in the next one, if that is free and adjacent and the two are
large enough together and not too large. -/
def grow (h : heap_t) (block alignedSize : Nat) : Option Nat → Option (heap_t × Bool)
  | none =>
    let combinedSize := (h.size block + HEADER_SIZE + env.head.size) % 2 ^ 64
    if env.head.allocated = false ∧ block + HEADER_SIZE + h.size block = env.head.addr ∧
        combinedSize ≥ alignedSize ∧ combinedSize ≤ HEAP_LARGE_ALLOC_THRESHOLD then none
    else some (h, false)
  | some next =>
    let combinedSize := h.size block + HEADER_SIZE + h.size next
    if (h.header next).allocated = false ∧ block + HEADER_SIZE + h.size block = next ∧
        combinedSize ≥ alignedSize ∧ combinedSize ≤ HEAP_LARGE_ALLOC_THRESHOLD then
      if (h.header next).mapped then none
      else
        let h := heap_remove_from_free_list h next
        let h := h.setHeader env block { h.header block with size := combinedSize }
        let h := { h with heapList := h.heapList.erase next }
        (trim env h block alignedSize).map fun h => (h, true)
    else some (h, false)

/-- `realloc` with the heap acquired. The second component is whether the block
stays where it is; otherwise `realloc` goes on at `direct_alloc`. -/
def reallocInPlace (h : heap_t) (block size : Nat) : Option (heap_t × Bool) :=
  let alignedSize := ROUND_UP size HEAP_ALIGNMENT
  if (h.header block).mapped then some (h, false)
  else if alignedSize < h.size block then (trim env h block alignedSize).map fun h => (h, true)
  else if alignedSize > h.size block then grow env h block alignedSize (listNext h.heapList block)
  else some (h, false)

end Patchwork.Heap
