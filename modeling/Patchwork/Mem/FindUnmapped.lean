import Patchwork.Mem.Paging
/-!
# The search for an unmapped region (`page_table_find_unmapped_region`)

The search goes up the address space and skips what an absent entry covers. A
request of a whole PML3 or PML2 entry looks for one absent entry of that level;
a smaller one counts unmapped pages in a row.

`some none` is `ERR`. When the addresses wrap around the search goes on from 0, or
from the start of the higher half. It is back where it was after the second
time, so that more than `rounds` rounds mean that it never ends: `none`.
-/

namespace Patchwork.Paging

/-- Three times the number of regions of size `PML2_SIZE`. -/
def rounds : Nat := 3 * 2 ^ 43

/-- The first address of the alignment, if it comes before `next` and `stop`. -/
def alignedBefore (currentAddr alignment next stop : Nat) : Option Nat :=
  let alignedAddr := ROUND_UP currentAddr alignment
  if alignedAddr < next ∧ alignedAddr < stop then some alignedAddr else none

/-- The loop for `amount >= PML3_SIZE / PAGE_SIZE`. -/
def findPml3Loop (pml4 : pml_t) (stop alignment : Nat) : Nat → Nat → Option (Option Nat)
  | 0, _ => none
  | fuel + 1, currentAddr =>
    if currentAddr < stop then
      let idx4 := PML_ADDR_TO_INDEX currentAddr 4
      let idx3 := PML_ADDR_TO_INDEX currentAddr 3
      let nextPml4 := ROUND_UP ((currentAddr + 1) % 2 ^ 64) PML4_SIZE
      let nextPml3 := ROUND_UP ((currentAddr + 1) % 2 ^ 64) PML3_SIZE
      if !Entry.present (pml4.entry idx4) then
        match alignedBefore currentAddr alignment nextPml4 stop with
        | some addr => some (some addr)
        | none => findPml3Loop pml4 stop alignment fuel nextPml4
      else if !Entry.present ((pml4.next idx4).entry idx3) then
        match alignedBefore currentAddr alignment nextPml3 stop with
        | some addr => some (some addr)
        | none => findPml3Loop pml4 stop alignment fuel nextPml3
      else findPml3Loop pml4 stop alignment fuel nextPml3
    else some none

/-- The loop for `amount >= PML2_SIZE / PAGE_SIZE`. -/
def findPml2Loop (pml4 : pml_t) (stop alignment : Nat) : Nat → Nat → Option (Option Nat)
  | 0, _ => none
  | fuel + 1, currentAddr =>
    if currentAddr < stop then
      let idx4 := PML_ADDR_TO_INDEX currentAddr 4
      let idx3 := PML_ADDR_TO_INDEX currentAddr 3
      let idx2 := PML_ADDR_TO_INDEX currentAddr 2
      let nextPml4 := ROUND_UP ((currentAddr + 1) % 2 ^ 64) PML4_SIZE
      let nextPml3 := ROUND_UP ((currentAddr + 1) % 2 ^ 64) PML3_SIZE
      let nextPml2 := ROUND_UP ((currentAddr + 1) % 2 ^ 64) PML2_SIZE
      let pml3 := pml4.next idx4
      let pml2 := pml3.next idx3
      if !Entry.present (pml4.entry idx4) then
        match alignedBefore currentAddr alignment nextPml4 stop with
        | some addr => some (some addr)
        | none => findPml2Loop pml4 stop alignment fuel nextPml4
      else if !Entry.present (pml3.entry idx3) then
        match alignedBefore currentAddr alignment nextPml3 stop with
        | some addr => some (some addr)
        | none => findPml2Loop pml4 stop alignment fuel nextPml3
      else if !Entry.present (pml2.entry idx2) then
        match alignedBefore currentAddr alignment nextPml2 stop with
        | some addr => some (some addr)
        | none => findPml2Loop pml4 stop alignment fuel nextPml2
      else findPml2Loop pml4 stop alignment fuel nextPml2
    else some none

/-- The variables of the third loop. -/
structure Scan where
  currentAddr : Nat
  regionStart : Nat
  consecutiveUnmapped : Nat

/-- `(MIN(skipTo, end) - from) / PAGE_SIZE`. -/
def pagesUpTo (start skipTo stop : Nat) : Nat := (min skipTo stop + 2 ^ 64 - start) % 2 ^ 64 / PAGE_SIZE

/-- What an absent entry of a PML3 or PML2 does to the count; `skipTo` is where
the next entry begins. -/
def skipAbsent (scan : Scan) (alignment skipTo stop : Nat) : Scan :=
  if scan.consecutiveUnmapped = 0 then
    match alignedBefore scan.currentAddr alignment skipTo stop with
    | some addr => { scan with regionStart := addr, consecutiveUnmapped := pagesUpTo addr skipTo stop }
    | none => scan
  else
    { scan with
      consecutiveUnmapped := (scan.consecutiveUnmapped + pagesUpTo scan.currentAddr skipTo stop) % 2 ^ 64 }

/-- The inner loop over the entries of a PML1 from `512 - n` on; `.error` is the
region that it found. -/
def findPml1Loop (pml1 : pml_t) (amount alignment stop : Nat) : Nat → Scan → Except Nat Scan
  | 0, scan => .ok scan
  | n + 1, scan =>
    if scan.currentAddr < stop then
      let nextAddr := (scan.currentAddr + PAGE_SIZE) % 2 ^ 64
      if !Entry.present (pml1.entry (PML_INDEX_AMOUNT - (n + 1))) then
        let scan :=
          if scan.consecutiveUnmapped = 0 then
            if ROUND_UP scan.currentAddr alignment = scan.currentAddr then
              { scan with regionStart := scan.currentAddr, consecutiveUnmapped := 1 }
            else scan
          else { scan with consecutiveUnmapped := scan.consecutiveUnmapped + 1 }
        if scan.consecutiveUnmapped ≥ amount then .error scan.regionStart
        else findPml1Loop pml1 amount alignment stop n { scan with currentAddr := nextAddr }
      else
        findPml1Loop pml1 amount alignment stop n { scan with currentAddr := nextAddr, consecutiveUnmapped := 0 }
    else .ok scan

/-- The loop for smaller requests. -/
def findPagesLoop (pml4 : pml_t) (amount alignment stop : Nat) : Nat → Scan → Option (Option Nat)
  | 0, _ => none
  | fuel + 1, scan =>
    if scan.currentAddr < stop then
      let idx4 := PML_ADDR_TO_INDEX scan.currentAddr 4
      let idx3 := PML_ADDR_TO_INDEX scan.currentAddr 3
      let idx2 := PML_ADDR_TO_INDEX scan.currentAddr 2
      let idx1 := PML_ADDR_TO_INDEX scan.currentAddr 1
      let pml3 := pml4.next idx4
      let pml2 := pml3.next idx3
      let pml1 := pml2.next idx2
      if !Entry.present (pml4.entry idx4) then
        let skipTo := PML_INDEX_TO_ADDR (idx4 + 1) 4
        let regionStart := if scan.consecutiveUnmapped = 0 then scan.currentAddr else scan.regionStart
        let consecutiveUnmapped := (scan.consecutiveUnmapped + pagesUpTo scan.currentAddr skipTo stop) % 2 ^ 64
        if consecutiveUnmapped ≥ amount then some (some regionStart)
        else findPagesLoop pml4 amount alignment stop fuel ⟨skipTo, regionStart, consecutiveUnmapped⟩
      else if !Entry.present (pml3.entry idx3) then
        let skipTo := ROUND_UP ((scan.currentAddr + 1) % 2 ^ 64) PML3_SIZE
        let scan := skipAbsent scan alignment skipTo stop
        if scan.consecutiveUnmapped ≥ amount then some (some scan.regionStart)
        else findPagesLoop pml4 amount alignment stop fuel { scan with currentAddr := skipTo }
      else if !Entry.present (pml2.entry idx2) then
        let skipTo := ROUND_UP ((scan.currentAddr + 1) % 2 ^ 64) PML2_SIZE
        let scan := skipAbsent scan alignment skipTo stop
        if scan.consecutiveUnmapped ≥ amount then some (some scan.regionStart)
        else findPagesLoop pml4 amount alignment stop fuel { scan with currentAddr := skipTo }
      else
        match findPml1Loop pml1 amount alignment stop (PML_INDEX_AMOUNT - idx1) scan with
        | .error addr => some (some addr)
        | .ok scan => findPagesLoop pml4 amount alignment stop fuel scan
    else some none

def page_table_find_unmapped_region (pml4 : pml_t) (startAddr endAddr amount alignment : Nat) : Option (Option Nat) :=
  let currentAddr := ROUND_DOWN startAddr PAGE_SIZE
  let alignment := max alignment PAGE_SIZE
  if amount ≥ PML3_SIZE / PAGE_SIZE then findPml3Loop pml4 endAddr alignment rounds currentAddr
  else if amount ≥ PML2_SIZE / PAGE_SIZE then findPml2Loop pml4 endAddr alignment rounds currentAddr
  else findPagesLoop pml4 amount alignment endAddr rounds ⟨currentAddr, 0, 0⟩

end Patchwork.Paging
