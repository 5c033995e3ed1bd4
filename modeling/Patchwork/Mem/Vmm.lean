import Patchwork.Mem.Space
/-!
# The virtual memory manager (`kernel/mem/vmm.c`)

The functions that map, allocate, protect and unmap regions of an address space.
TLB shootdowns and the contents of pages are left out.
-/

namespace Patchwork.Space

open Paging

variable {σ τ : Type} (env : Env σ)

def vmm_page_table_unmap_with_shootdown (space : space_t σ τ) (virtAddr pageAmount : Nat) : space_t σ τ :=
  let pageTable := page_table_unmap env space.pageTable space.mem virtAddr pageAmount
  let (pageTable, mem) := page_table_clear env pageTable space.mem virtAddr pageAmount
  { space with pageTable := pageTable, mem := mem }

/-- The batches of `vmm_alloc`, with `remainingPages` still to come; `fuel` is the
number of pages. -/
def vmm_alloc_loop (mapping : space_mapping_t) : Nat → Nat → space_t σ τ → Option errno_t × space_t σ τ
  | 0, _, space => (none, space)
  | fuel + 1, remainingPages, space =>
    if remainingPages = 0 then (none, space)
    else
      let done := mapping.pageAmount - remainingPages
      let batchSize := min remainingPages 64
      match env.allocPages space.mem batchSize with
      | (none, mem) =>
        (some .ENOMEM, vmm_page_table_unmap_with_shootdown env { space with mem := mem } mapping.virtAddr done)
      | (some pages, mem) =>
        match page_table_map_pages env space.pageTable mem ((mapping.virtAddr + done * PAGE_SIZE) % 2 ^ 64) pages batchSize
            mapping.flags PML_CALLBACK_NONE with
        | (false, pageTable, mem) =>
          (some .ENOMEM,
            vmm_page_table_unmap_with_shootdown env { space with pageTable := pageTable, mem := mem } mapping.virtAddr done)
        | (true, pageTable, mem) =>
          vmm_alloc_loop mapping fuel (remainingPages - batchSize) { space with pageTable := pageTable, mem := mem }

/-- `failIfMapped` is the flag `VMM_ALLOC_FAIL_IF_MAPPED`; `VMM_ALLOC_ZERO`
concerns the contents of the pages. -/
def vmm_alloc (space : space_t σ τ) (virtAddr length alignment : Nat) (pmlFlags : pml_flags_t) (failIfMapped : Bool) :
    Call σ τ Nat :=
  if length = 0 ∨ Entry.present pmlFlags = false then some (.error .EINVAL, space)
  else
    match space_mapping_start env space virtAddr PHYS_ADDR_INVALID length alignment (pmlFlags ||| PML_OWNED) with
    | none => none
    | some (.error err, space) => some (.error err, space)
    | some (.ok mapping, space) =>
      if page_table_is_pinned env space.pageTable space.mem mapping.virtAddr mapping.pageAmount then
        some (space_mapping_end space mapping (some .EBUSY))
      else
        let unmapped := page_table_is_unmapped env space.pageTable space.mem mapping.virtAddr mapping.pageAmount
        if !unmapped && failIfMapped then some (space_mapping_end space mapping (some .EEXIST))
        else
          let space :=
            if !unmapped then vmm_page_table_unmap_with_shootdown env space mapping.virtAddr mapping.pageAmount else space
          let (err, space) := vmm_alloc_loop env mapping mapping.pageAmount mapping.pageAmount space
          some (space_mapping_end space mapping err)

/-- The callback ID of a mapping, `PML_CALLBACK_NONE` without a function. -/
def chooseCallback (space : space_t σ τ) (callbackPages : Nat) : Option τ → Nat × space_t σ τ
  | none => (PML_CALLBACK_NONE, space)
  | some func => space_alloc_callback env space callbackPages func

/-- `vmm_map` and `vmm_map_pages` once the callback ID is known; `mapPages` is
the call of the one or the other that maps the region. -/
def mapWith (space : space_t σ τ) (mapping : space_mapping_t) (callbackId : Nat)
    (mapPages : pml_t → σ → Nat → Bool × pml_t × σ) : Except errno_t Nat × space_t σ τ :=
  let space :=
    if !page_table_is_unmapped env space.pageTable space.mem mapping.virtAddr mapping.pageAmount then
      vmm_page_table_unmap_with_shootdown env space mapping.virtAddr mapping.pageAmount
    else space
  match mapPages space.pageTable space.mem callbackId with
  | (true, pageTable, mem) => space_mapping_end { space with pageTable := pageTable, mem := mem } mapping none
  | (false, pageTable, mem) =>
    let space := { space with pageTable := pageTable, mem := mem }
    let space := if callbackId ≠ PML_CALLBACK_NONE then space_free_callback space callbackId else space
    let space := vmm_page_table_unmap_with_shootdown env space mapping.virtAddr mapping.pageAmount
    space_mapping_end space mapping (some .ENOMEM)

/-- The part of `vmm_map` and `vmm_map_pages` after the region is found. They
differ in the number of pages the callback is for, and in `mapPages`. -/
def mapRegion (space : space_t σ τ) (mapping : space_mapping_t) (callbackPages : Nat) (func : Option τ)
    (mapPages : pml_t → σ → Nat → Bool × pml_t × σ) : Except errno_t Nat × space_t σ τ :=
  if page_table_is_pinned env space.pageTable space.mem mapping.virtAddr mapping.pageAmount then
    space_mapping_end space mapping (some .EBUSY)
  else
    let chosen := chooseCallback env space callbackPages func
    if func.isSome ∧ chosen.1 = PML_MAX_CALLBACK then space_mapping_end chosen.2 mapping (some .ENOSPC)
    else mapWith env chosen.2 mapping chosen.1 mapPages

def vmm_map (space : space_t σ τ) (virtAddr physAddr length : Nat) (flags : pml_flags_t) (func : Option τ) :
    Call σ τ Nat :=
  if physAddr = PHYS_ADDR_INVALID ∨ length = 0 ∨ Entry.present flags = false then some (.error .EINVAL, space)
  else
    match space_mapping_start env space virtAddr physAddr length 1 flags with
    | none => none
    | some (.error err, space) => some (.error err, space)
    | some (.ok mapping, space) =>
      some (mapRegion env space mapping mapping.pageAmount func fun pageTable mem callbackId =>
        page_table_map env pageTable mem mapping.virtAddr mapping.physAddr mapping.pageAmount flags callbackId)

/-- `pfns` is not `NULL`. -/
def vmm_map_pages (space : space_t σ τ) (virtAddr : Nat) (pfns : Nat → Nat) (amount : Nat) (flags : pml_flags_t)
    (func : Option τ) : Call σ τ Nat :=
  if amount = 0 ∨ Entry.present flags = false then some (.error .EINVAL, space)
  else
    match space_mapping_start env space virtAddr PHYS_ADDR_INVALID (amount * PAGE_SIZE % 2 ^ 64) 1 flags with
    | none => none
    | some (.error err, space) => some (.error err, space)
    | some (.ok mapping, space) =>
      some (mapRegion env space mapping amount func fun pageTable mem callbackId =>
        page_table_map_pages env pageTable mem mapping.virtAddr pfns mapping.pageAmount mapping.flags callbackId)

/-- The loop body of `vmm_unmap`: the callback `index` loses the pages that were
counted for it. -/
def vmm_unmap_callback (callbacks : Nat → Nat) (space : space_t σ τ) (index : Nat) : space_t σ τ :=
  let callback := space.callbacks index
  let space := space.assert (callback.pageAmount ≥ callbacks index)
  let pageAmount := (callback.pageAmount + 2 ^ 64 - callbacks index) % 2 ^ 64
  let space :=
    { space with callbacks := Function.update space.callbacks index { callback with pageAmount := pageAmount } }
  if pageAmount = 0 then
    space_free_callback (callCallback (space.assert (index < space.callbacksLength)) index) index
  else space

def vmm_unmap (space : space_t σ τ) (virtAddr length : Nat) : Call σ τ Nat :=
  if virtAddr = 0 ∨ length = 0 then some (.error .EINVAL, space)
  else
    match space_mapping_start env space virtAddr PHYS_ADDR_INVALID length 1 PML_NONE with
    | none => none
    | some (.error err, space) => some (.error err, space)
    | some (.ok mapping, space) =>
      if page_table_is_pinned env space.pageTable space.mem mapping.virtAddr mapping.pageAmount then
        some (space_mapping_end space mapping (some .EBUSY))
      else
        let callbacks := page_table_collect_callbacks env space.pageTable space.mem mapping.virtAddr mapping.pageAmount
          fun _ => 0
        let space := vmm_page_table_unmap_with_shootdown env space mapping.virtAddr mapping.pageAmount
        let space := BITMAP_FOR_EACH_SET space_t.callbackBitmap (vmm_unmap_callback callbacks) space
        some (space_mapping_end space mapping none)

def vmm_protect (space : space_t σ τ) (virtAddr length : Nat) (flags : pml_flags_t) : Call σ τ Nat :=
  if virtAddr = 0 ∨ length = 0 then some (.error .EINVAL, space)
  else if Entry.present flags = false then vmm_unmap env space virtAddr length
  else
    match space_mapping_start env space virtAddr PHYS_ADDR_INVALID length 1 flags with
    | none => none
    | some (.error err, space) => some (.error err, space)
    | some (.ok mapping, space) =>
      if page_table_is_pinned env space.pageTable space.mem mapping.virtAddr mapping.pageAmount then
        some (space_mapping_end space mapping (some .EBUSY))
      else if page_table_is_unmapped env space.pageTable space.mem mapping.virtAddr mapping.pageAmount then
        some (space_mapping_end space mapping (some .ENOENT))
      else
        match page_table_set_flags env space.pageTable space.mem mapping.virtAddr mapping.pageAmount mapping.flags with
        | (false, pageTable) => some (space_mapping_end { space with pageTable := pageTable } mapping (some .EINVAL))
        | (true, pageTable) => some (space_mapping_end { space with pageTable := pageTable } mapping none)

end Patchwork.Space
