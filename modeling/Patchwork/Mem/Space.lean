import Patchwork.Mem.FindUnmapped
import Patchwork.Utils.BitmapEach
/-!
# Address spaces (`kernel/mem/space.c`)

An address space is a page table, the callbacks of its mappings and the range
that free addresses are taken from. Each function runs under the lock of the
space. The functions below are those around a mapping: `space_mapping_start`
finds the region, `space_mapping_end` gives the result.

A call that returns is `some` of its result and the space; `none` is a loop that
never ends or a division by zero. `ran` lists the callback functions that were
called, in order, each with its data as one value of `τ`. `failed` is set when an
`assert` does not hold.
-/

namespace Patchwork.Space

open Paging

inductive errno_t where
  | EINVAL
  | EOVERFLOW
  | EFAULT
  | ENOMEM
  | EBUSY
  | ENOSPC
  | EEXIST
  | ENOENT
  | EOK
  deriving DecidableEq

/-- A callback function with its data, and how many pages it is for. -/
structure space_callback_t (τ : Type) where
  func : Option τ
  pageAmount : Nat

structure space_t (σ τ : Type) where
  pageTable : pml_t
  mem : σ
  pinnedPages : Nat → Option Nat
  startAddress : Nat
  endAddress : Nat
  freeAddress : Nat
  callbacks : Nat → space_callback_t τ
  callbacksLength : Nat
  callbackBitmap : bitmap_t
  ran : List τ
  failed : Bool

structure space_mapping_t where
  virtAddr : Nat
  physAddr : Nat
  pageAmount : Nat
  flags : pml_flags_t

variable {σ τ : Type} (env : Env σ)

/-- A result and the space after it. -/
abbrev Call (σ τ α : Type) : Type := Option (Except errno_t α × space_t σ τ)

def space_t.assert (space : space_t σ τ) (b : Bool) : space_t σ τ := { space with failed := space.failed || !b }

def PHYS_ADDR_INVALID : Nat := 2 ^ 64 - 1
def VMM_USER_SPACE_MIN : Nat := 0x400000
def VMM_USER_SPACE_MAX : Nat := PML_LOWER_HALF_END

def PML_ENSURE_LOWER_HALF (addr : Nat) : Nat :=
  if addr ≥ PML_HIGHER_HALF_START then addr - PML_HIGHER_HALF_START else addr

/-- The address space before anything is mapped, with nothing of the kernel in it;
`none` is `ERR`. -/
def space_init (mem : σ) (startAddress endAddress : Nat) : Option (space_t σ τ) :=
  match pml_new env mem with
  | (none, _) => none
  | (some (_, pml4), mem) =>
    some
      { pageTable := pml4, mem := mem, pinnedPages := fun _ => none, startAddress := startAddress,
        endAddress := endAddress, freeAddress := startAddress, callbacks := fun _ => { func := none, pageAmount := 0 },
        callbacksLength := 0, callbackBitmap := BITMAP_CREATE_ZERO PML_MAX_CALLBACK, ran := [], failed := false }

def space_align_region (virtAddr length : Nat) : Nat × Nat :=
  let aligned := ROUND_DOWN virtAddr PAGE_SIZE
  (aligned, (length + (virtAddr - aligned)) % 2 ^ 64)

/-! ## Mappings -/

/-- The address, or `NULL` as 0. -/
def space_find_free_region (space : space_t σ τ) (pageAmount alignment : Nat) : Option (Nat × space_t σ τ) :=
  match page_table_find_unmapped_region space.pageTable space.freeAddress space.endAddress pageAmount alignment with
  | none => none
  | some (some addr) =>
    some (addr, { space with freeAddress := (addr + pageAmount * PAGE_SIZE) % 2 ^ 64 }.assert
      (page_table_is_unmapped env space.pageTable space.mem addr pageAmount))
  | some none =>
    match page_table_find_unmapped_region space.pageTable space.startAddress space.freeAddress pageAmount alignment with
    | none => none
    | some (some addr) => some (addr, space.assert (page_table_is_unmapped env space.pageTable space.mem addr pageAmount))
    | some none => some (0, space)

def space_mapping_start (space : space_t σ τ) (virtAddr physAddr length alignment : Nat) (flags : pml_flags_t) :
    Call σ τ space_mapping_t :=
  let physAddr' :=
    if physAddr ≠ PHYS_ADDR_INVALID then PML_ENSURE_LOWER_HALF (ROUND_DOWN physAddr PAGE_SIZE) else PHYS_ADDR_INVALID
  if length = 0 then some (.error .EINVAL, space)
  else if (virtAddr + length) % 2 ^ 64 < virtAddr then some (.error .EOVERFLOW, space)
  else if physAddr ≠ PHYS_ADDR_INVALID ∧ (physAddr + length) % 2 ^ 64 < physAddr then some (.error .EOVERFLOW, space)
  else if flags &&& PML_USER ≠ 0#64 ∧ virtAddr ≠ 0 ∧
      ((virtAddr + length) % 2 ^ 64 > VMM_USER_SPACE_MAX ∨ virtAddr < VMM_USER_SPACE_MIN) then
    some (.error .EFAULT, space)
  else if virtAddr = 0 then
    let pageAmount := BYTES_TO_PAGES length
    match space_find_free_region env space pageAmount alignment with
    | none => none
    | some (addr, space) =>
      if addr = 0 then some (.error .ENOMEM, space)
      else some (.ok { virtAddr := addr, physAddr := physAddr', pageAmount := pageAmount, flags := flags }, space)
  else
    let (virtAddr, length) := space_align_region virtAddr length
    if alignment = 0 then none
    else if virtAddr % alignment ≠ 0 then some (.error .EINVAL, space)
    else
      some (.ok { virtAddr := virtAddr, physAddr := physAddr', pageAmount := BYTES_TO_PAGES length, flags := flags }, space)

def space_update_free_address (space : space_t σ τ) (virtAddr pageAmount : Nat) : space_t σ τ :=
  let stop := (virtAddr + pageAmount * PAGE_SIZE) % 2 ^ 64
  if virtAddr ≤ space.freeAddress ∧ space.freeAddress < stop then { space with freeAddress := stop } else space

/-- `space_mapping_end` with an error, or with `EOK` as `none`. -/
def space_mapping_end (space : space_t σ τ) (mapping : space_mapping_t) (err : Option errno_t) :
    Except errno_t Nat × space_t σ τ :=
  match err with
  | some err => (.error err, space)
  | none => (.ok mapping.virtAddr, space_update_free_address space mapping.virtAddr mapping.pageAmount)

/-! ## Callbacks -/

/-- The size of a `space_callback_t`. -/
def callbackSize : Nat := 24

/-- The ID, or `PML_MAX_CALLBACK`. -/
def space_alloc_callback (space : space_t σ τ) (pageAmount : Nat) (func : τ) : Nat × space_t σ τ :=
  let callbackId := bitmap_find_first_clear space.callbackBitmap 0 PML_MAX_CALLBACK % 2 ^ 8
  if callbackId = PML_MAX_CALLBACK then (PML_MAX_CALLBACK, space)
  else
    let grown : Except (space_t σ τ) (space_t σ τ) :=
      if callbackId ≥ space.callbacksLength then
        match env.malloc space.mem (callbackSize * (callbackId + 1)) with
        | (false, mem) => .error { space with mem := mem }
        | (true, mem) =>
          .ok { space with
            mem := mem
            callbacks := fun i =>
              if space.callbacksLength ≤ i ∧ i ≤ callbackId then { func := none, pageAmount := 0 } else space.callbacks i
            callbacksLength := callbackId + 1 }
      else .ok space
    match grown with
    | .error space => (PML_MAX_CALLBACK, space)
    | .ok space =>
      (callbackId,
        { space with
          callbackBitmap := bitmap_set space.callbackBitmap callbackId
          callbacks := Function.update space.callbacks callbackId { func := some func, pageAmount := pageAmount } })

def space_free_callback (space : space_t σ τ) (callbackId : Nat) : space_t σ τ :=
  { space with callbackBitmap := bitmap_clear space.callbackBitmap callbackId }

/-- `space->callbacks[index].func(space->callbacks[index].data)`. -/
def callCallback (space : space_t σ τ) (index : Nat) : space_t σ τ :=
  { space with ran := space.ran ++ (space.callbacks index).func.toList }

/-- The callbacks that are left are called; nothing of the space is used after
its page table has been freed. -/
def space_deinit (space : space_t σ τ) : space_t σ τ :=
  BITMAP_FOR_EACH_SET space_t.callbackBitmap callCallback space

/-! ## An empty address space -/

/-- Memory that never runs out; the state is the next frame. -/
def bump : Env Nat where
  allocPages mem amount := (some fun i => mem + i, mem + amount)
  freePages mem _ := mem
  malloc mem _ := (true, mem)

def emptySpace : space_t Nat Nat :=
  { pageTable := .mk (fun _ => 0#64) fun _ => .null, mem := 1, pinnedPages := fun _ => none,
    startAddress := VMM_USER_SPACE_MIN, endAddress := VMM_USER_SPACE_MAX, freeAddress := VMM_USER_SPACE_MIN,
    callbacks := fun _ => { func := none, pageAmount := 0 }, callbacksLength := 0,
    callbackBitmap := BITMAP_CREATE_ZERO PML_MAX_CALLBACK, ran := [], failed := false }

end Patchwork.Space
