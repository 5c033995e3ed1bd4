import Patchwork.Mem.PinDepth
/-!
# The end of an array in memory

`space_pin_terminated` compares an array with the terminator byte by byte. It pins each page
before it reads it and keeps an object that matches so far across the end of the page. The
first object that is the terminator is found wherever the pages end, but for the last page
of the address space: its end wraps around to 0, and no byte of the page is read.
-/

namespace Patchwork.Space

open Paging

variable {bytes terminator : Nat → Nat} {objectSize address scanEnd stop maxCount j current matched low : Nat}

/-- Object `k` is the terminator, byte for byte. -/
def IsTerminator (bytes terminator : Nat → Nat) (objectSize address k : Nat) : Prop :=
  ∀ i < objectSize, bytes (address + k * objectSize + i) = terminator i

/-- The first `result` bytes end with the first terminator. -/
def FirstEnds (bytes terminator : Nat → Nat) (objectSize address maxCount result : Nat) : Prop :=
  ∃ k < maxCount, result = (k + 1) * objectSize ∧ IsTerminator bytes terminator objectSize address k ∧
    ∀ j < k, ¬ IsTerminator bytes terminator objectSize address j

/-- The call returns, and with success exactly if a terminator ends the array. -/
def FindsTerminator {σ τ : Type} (bytes terminator : Nat → Nat) (objectSize address maxCount : Nat)
    (call : Call σ τ Nat) : Prop :=
  ∃ r space, call = some (r, space) ∧ ∀ n, r = .ok n ↔ FirstEnds bytes terminator objectSize address maxCount n

/-! ## Objects -/

/-- The scan is in object `j`, which matches so far, and no object before it is the terminator. -/
structure Matched (bytes terminator : Nat → Nat) (objectSize address j current matched : Nat) : Prop where
  position : current = address + j * objectSize + matched
  lt : matched < objectSize
  eq : ∀ i < matched, bytes (address + j * objectSize + i) = terminator i
  before : ∀ k < j, ¬ IsTerminator bytes terminator objectSize address k

theorem matched_start (hsize : 0 < objectSize) : Matched bytes terminator objectSize address 0 address 0 :=
  ⟨by omega, hsize, nofun, nofun⟩

namespace Matched

variable (h : Matched bytes terminator objectSize address j current matched)
include h

theorem eq_le (heq : bytes current = terminator matched) :
    ∀ i < matched + 1, bytes (address + j * objectSize + i) = terminator i := by
  intro i hi
  rcases Nat.lt_succ_iff_lt_or_eq.1 hi with hi | rfl
  · exact h.eq i hi
  · rwa [← h.position]

theorem succ (heq : bytes current = terminator matched) (hlt : matched + 1 < objectSize) :
    Matched bytes terminator objectSize address j (current + 1) (matched + 1) :=
  ⟨by rw [h.position]; rfl, hlt, h.eq_le heq, h.before⟩

/-- A mismatch: the scan goes on with the next object. -/
theorem skip (hne : bytes current ≠ terminator matched) :
    Matched bytes terminator objectSize address (j + 1) (current + objectSize - matched) 0 := by
  have hlt := h.lt
  refine ⟨?_, by omega, nofun, fun k hk => ?_⟩
  · rw [h.position, Nat.add_one_mul]
    omega
  · rcases Nat.lt_succ_iff_lt_or_eq.1 hk with hk | rfl
    · exact h.before k hk
    · exact fun hterm => hne (h.position ▸ hterm matched hlt)

theorem fits (hlt : current < address + maxCount * objectSize) :
    j < maxCount ∧ address + (j + 1) * objectSize ≤ address + maxCount * objectSize := by
  have hj : j < maxCount := by
    rw [h.position, Nat.add_assoc, Nat.add_lt_add_iff_left] at hlt
    exact Nat.lt_of_mul_lt_mul_right (Nat.lt_of_le_of_lt (Nat.le_add_right _ _) hlt)
  exact ⟨hj, Nat.add_le_add_left (Nat.mul_le_mul_right _ hj) _⟩

end Matched

/-! ## Pages -/

/-- What is known after a page that was scanned from `low` on. -/
def PageScanned (bytes terminator : Nat → Nat) (objectSize address maxCount low scanEnd : Nat) : Scan → Prop
  | .found result =>
    FirstEnds bytes terminator objectSize address maxCount result ∧ low < address + result ∧ address + result ≤ scanEnd
  | .more current matched =>
    scanEnd ≤ current ∧ current < scanEnd + objectSize ∧ current ≤ address + maxCount * objectSize ∧
      ∃ j, Matched bytes terminator objectSize address j current matched

section Scan
variable (hstop : address + maxCount * objectSize < 2 ^ 64) (hend : scanEnd ≤ address + maxCount * objectSize)
include hstop hend

theorem Matched.found (h : Matched bytes terminator objectSize address j current matched)
    (heq : bytes current = terminator matched) (hlast : matched + 1 = objectSize) (hlow : low ≤ current)
    (hlt : current < scanEnd) :
    PageScanned bytes terminator objectSize address maxCount low scanEnd
      (.found ((current + 2 ^ 64 - address + 1) % 2 ^ 64)) := by
  obtain ⟨hj, hfit⟩ := h.fits (Nat.lt_of_lt_of_le hlt hend)
  have hpos := h.position
  have hmul := Nat.add_one_mul j objectSize
  have hresult : (current + 2 ^ 64 - address + 1) % 2 ^ 64 = (j + 1) * objectSize := by omega
  rw [hresult]
  exact ⟨⟨j, hj, rfl, hlast ▸ h.eq_le heq, h.before⟩, by omega, by omega⟩

theorem scanBytes_spec (h1 : objectSize = 1) (n : Nat) (h : Matched bytes terminator objectSize address j current 0)
    (hlow : low ≤ current) (hn : current + n = scanEnd) :
    PageScanned bytes terminator objectSize address maxCount low scanEnd
      (scanBytes bytes (terminator 0) address scanEnd n current) := by
  subst h1
  induction n generalizing j current with
  | zero => exact ⟨le_rfl, by omega, hend, j, hn ▸ h⟩
  | succ n ih =>
    rw [scanBytes]
    split
    · next heq => exact h.found hstop hend heq rfl hlow (by omega)
    · next hne => exact ih (by omega) (by omega) (h.skip hne)

theorem scanObjects_spec (fuel : Nat) (h : Matched bytes terminator objectSize address j current matched)
    (hlow : low ≤ current) (hcur : current ≤ address + maxCount * objectSize) (hnear : current < scanEnd + objectSize)
    (hfuel : scanEnd - current < fuel) :
    ∃ scan, scanObjects bytes terminator objectSize address scanEnd fuel current matched = some scan ∧
      PageScanned bytes terminator objectSize address maxCount low scanEnd scan := by
  induction fuel generalizing j current matched with
  | zero => exact absurd hfuel (Nat.not_lt_zero _)
  | succ fuel ih =>
    have hlt := h.lt
    rw [scanObjects]
    split
    · next hbefore =>
      split
      · next heq =>
        split
        · next hlast => exact ⟨_, rfl, h.found hstop hend heq hlast hlow hbefore⟩
        · exact ih (h.succ heq (by omega)) (by omega) (by omega) (by omega) (by omega)
      · next hne =>
        have hfit := (h.fits (Nat.lt_of_lt_of_le hbefore hend)).2
        have hskip := h.skip hne
        have hpos := hskip.position
        have hbehind := h.position
        have hnext : (current + 2 ^ 64 - matched + objectSize) % 2 ^ 64 = current + objectSize - matched := by omega
        rw [hnext]
        exact ih hskip (by omega) (by omega) (by omega) (by omega)
    · exact ⟨_, rfl, by omega, hnear, hcur, j, h⟩

theorem scanPage_spec (h : Matched bytes terminator objectSize address j current matched) (hlt : current < scanEnd) :
    ∃ scan, scanPage bytes terminator objectSize address scanEnd current matched = some scan ∧
      PageScanned bytes terminator objectSize address maxCount current scanEnd scan := by
  unfold scanPage
  split
  · next h1 =>
    have hzero : matched = 0 := Nat.lt_one_iff.1 (h1 ▸ h.lt)
    exact ⟨_, rfl, scanBytes_spec hstop hend h1 _ (hzero ▸ h) le_rfl (by omega)⟩
  · refine scanObjects_spec hstop hend scanFuel h le_rfl (by omega) (by omega) ?_
    unfold scanFuel
    omega

end Scan

theorem lt_scanEnd (hlt : current < stop) (hstop : stop + PAGE_SIZE ≤ 2 ^ 64) :
    current < min (ROUND_UP ((current + 1) % 2 ^ 64) PAGE_SIZE) stop := by
  simp only [ROUND_UP, PAGE_SIZE] at hstop ⊢
  omega

/-! ## The call -/

section Calls
variable {σ τ : Type} {env : Env σ} {space : space_t σ τ} {userStack : Option stack_pointer_t} {P : space_t σ τ → Prop}

/-- What is known after the call, where `P` holds of the space whenever a page is pinned. -/
def Ended (env : Env σ) (userStack : Option stack_pointer_t) (P : space_t σ τ → Prop) (bytes terminator : Nat → Nat)
    (objectSize address maxCount : Nat) : Except errno_t Nat → Prop
  | .ok n => FirstEnds bytes terminator objectSize address maxCount n
  | .error err => (∀ k < maxCount, ¬ IsTerminator bytes terminator objectSize address k) ∨
    ∃ space current, P space ∧ address ≤ current ∧ current < address + maxCount * objectSize ∧
      (pinPage env userStack current space).1 = .error err

section Ends
variable (hstop : address + maxCount * objectSize + PAGE_SIZE ≤ 2 ^ 64)
  (hP : ∀ space current, P space → address ≤ current → current < address + maxCount * objectSize →
    P (pinPage env userStack current space).2)
include hstop hP

theorem pin_terminated_loop_spec (fuel pinned : Nat) (hspace : P space)
    (h : Matched bytes terminator objectSize address j current matched) (hcur : current ≤ address + maxCount * objectSize)
    (hfuel : address + maxCount * objectSize - current < fuel) :
    ∃ r space', space_pin_terminated_loop env bytes terminator objectSize address (address + maxCount * objectSize)
      userStack fuel current matched pinned space = some (r, space') ∧
        Ended env userStack P bytes terminator objectSize address maxCount r := by
  have hp : PAGE_SIZE = 4096 := rfl
  induction fuel generalizing j current matched pinned space with
  | zero => exact absurd hfuel (Nat.not_lt_zero _)
  | succ fuel ih =>
    have hpos := h.position
    rw [space_pin_terminated_loop]
    split
    · next hlt =>
      have hnext := hP space current hspace (by omega) hlt
      cases hpin : pinPage env userStack current space with
      | mk r space1 =>
        cases r with
        | error err => exact ⟨_, _, rfl, .inr ⟨space, current, hspace, by omega, hlt, by rw [hpin]⟩⟩
        | ok =>
          rw [hpin] at hnext
          have hscan := lt_scanEnd hlt hstop
          obtain ⟨scan, heq, hscanned⟩ := scanPage_spec (by omega) (Nat.min_le_right _ _) h hscan
          simp only [heq]
          cases scan with
          | found result => exact ⟨_, _, rfl, hscanned.1⟩
          | more current' matched' =>
            obtain ⟨hmore, -, hle, j', h'⟩ := hscanned
            exact ih _ hnext h' hle (by omega)
    · next hge =>
      refine ⟨_, _, rfl, .inl fun k hk => h.before k ?_⟩
      -- the scan has come to the end of the last object
      by_contra hkj
      have hj : (j + 1) * objectSize ≤ maxCount * objectSize := Nat.mul_le_mul_right _ (by omega)
      rw [Nat.add_one_mul] at hj
      have hlt := h.lt
      omega

theorem pin_terminated_spec (bytes terminator : Nat → Nat) (haddr : address ≠ 0) (hsize : 0 < objectSize)
    (hcount : 0 < maxCount)
    (space : space_t σ τ) (hspace : P space) :
    ∃ r space', space_pin_terminated env space address bytes terminator objectSize maxCount userStack = some (r, space') ∧
      Ended env userStack P bytes terminator objectSize address maxCount r := by
  have hp : PAGE_SIZE = 4096 := rfl
  have hmod : (address + maxCount * objectSize) % 2 ^ 64 = address + maxCount * objectSize := Nat.mod_eq_of_lt (by omega)
  rw [space_pin_terminated, if_neg (by omega)]
  simp only [hmod]
  rw [if_neg (by omega)]
  refine pin_terminated_loop_spec hstop hP scanFuel 0 hspace (matched_start hsize) (Nat.le_add_right _ _) ?_
  unfold scanFuel
  omega

end Ends

/-! ## Mapped memory -/

/-- The pages of the array are mapped. -/
def ArrayMapped (address length : Nat) (space : space_t σ τ) : Prop :=
  ∀ a, address ≤ a → a < address + length → Entry.present (page space.pageTable (vpn a)) = true

theorem pinInc_ok (hmalloc : ∀ mem size, (env.malloc mem size).1 = true) {addr : Nat}
    (hl : Linked addr 3 space.pageTable) :
    (pinInc env space addr).1 = true ∧ ∀ v < 2 ^ 36,
      Entry.present (page (pinInc env space addr).2.pageTable v) = Entry.present (page space.pageTable v) := by
  unfold pinInc
  dsimp only
  split
  · exact ⟨rfl, fun _ _ => rfl⟩
  · split
    · refine ⟨rfl, fun v hv => ?_⟩
      rw [page_setPinned hl true hv]
      split
      · exact Entry.present_setPinned ..
      · rfl
    · split
      · exact ⟨rfl, fun _ _ => rfl⟩
      · have h1 := hmalloc space.mem pinnedPageSize
        have h2 := hmalloc (env.malloc space.mem pinnedPageSize).2 0
        grind [setPinCount]

/-- A page that is mapped can be pinned, and all pages stay mapped. -/
theorem pinPage_ok (hmalloc : ∀ mem size, (env.malloc mem size).1 = true) (userStack : Option stack_pointer_t)
    (hcur : current < 2 ^ 64) (hpres : Entry.present (page space.pageTable (vpn current)) = true) :
    (pinPage env userStack current space).1 = .ok () ∧ ∀ v < 2 ^ 36,
      Entry.present (page (pinPage env userStack current space).2.pageTable v) =
        Entry.present (page space.pageTable v) := by
  have hmapped : page_table_is_mapped env space.pageTable space.mem current 1 = true := by
    rw [is_mapped_iff, vpns_one, Nat.mod_eq_of_lt hcur]
    simpa using hpres
  unfold pinPage
  simp only [hmapped, Bool.not_true, Bool.false_and, Bool.false_eq_true, if_false, populateUnless, if_true]
  have hpages : pageAddrs (ROUND_DOWN current PAGE_SIZE) 1 = [ROUND_DOWN current PAGE_SIZE % 2 ^ 64] := by simp [pageAddrs]
  have htrav := traverse_none env traverse_create_invalid space.pageTable space.mem (ROUND_DOWN current PAGE_SIZE % 2 ^ 64)
  rw [space_pin_depth_inc, hpages, space_pin_depth_inc_loop]
  obtain ⟨ok, traverse, heq, -, hcases⟩ := htrav
  rw [heq]
  obtain ⟨rfl, hl⟩ | ⟨rfl, -⟩ := hcases
  · obtain ⟨hok, hsame⟩ := pinInc_ok hmalloc hl
    cases hinc : pinInc env space (ROUND_DOWN current PAGE_SIZE % 2 ^ 64) with
    | mk ok space1 =>
      rw [hinc] at hok hsame
      subst hok
      exact ⟨rfl, hsame⟩
  · exact ⟨rfl, fun _ _ => rfl⟩

/-! ## The last page -/

/-- Zeros and a 1 as the last byte of the array, and as the last byte of the terminator: the
terminator is the last object. -/
def lastByte (n a : Nat) : Nat := if a + 1 = n then 1 else 0

theorem firstEnds_lastByte (hsize : 0 < objectSize) (hcount : 0 < maxCount) :
    FirstEnds (lastByte (address + maxCount * objectSize)) (lastByte objectSize) objectSize address maxCount
      (maxCount * objectSize) := by
  obtain ⟨k, rfl⟩ : ∃ k, maxCount = k + 1 := ⟨maxCount - 1, by omega⟩
  have hmul := Nat.add_one_mul k objectSize
  refine ⟨k, Nat.lt_succ_self k, rfl, fun i hi => ?_, fun j hj hterm => ?_⟩
  · unfold lastByte
    split <;> split <;> omega
  · have hle : (j + 1) * objectSize ≤ k * objectSize := Nat.mul_le_mul_right _ hj
    have hlast := hterm (objectSize - 1) (by omega)
    rw [Nat.add_one_mul] at hle
    unfold lastByte at hlast
    split at hlast <;> split at hlast <;> omega

/-- A page that ends before the end of the array does not have the terminator. -/
theorem scanPage_lost (hlt : scanEnd < stop) {n : Nat} :
    scanPage (lastByte stop) (lastByte objectSize) objectSize address scanEnd current matched ≠ some (.found n) := by
  have hzero : ∀ a < scanEnd, lastByte stop a = 0 := fun a ha => if_neg (by omega)
  unfold scanPage
  split
  · next h1 =>
    subst h1
    have hbytes : ∀ n a, a + n ≤ scanEnd → scanBytes (lastByte stop) 1 address scanEnd n a = .more scanEnd 0 := by
      intro n
      induction n with
      | zero => exact fun a _ => rfl
      | succ n ih =>
        intro a ha
        rw [scanBytes, hzero a (by omega), if_neg (by decide), ih _ (by omega)]
    have hone : lastByte 1 0 = 1 := rfl
    rw [hone]
    by_cases hcur : current ≤ scanEnd
    · rw [hbytes _ _ (by omega)]
      simp
    · rw [Nat.sub_eq_zero_of_le (by omega), scanBytes]
      simp
  · generalize scanFuel = fuel
    induction fuel generalizing current matched with
    | zero => simp [scanObjects]
    | succ fuel ih =>
      rw [scanObjects]
      split
      · next hcur =>
        split
        · next heq =>
          rw [hzero _ hcur, lastByte] at heq
          rw [if_neg fun hlast => by simp [hlast] at heq]
          exact ih
        · exact ih
      · simp

/-- The last page of the address space is never read. -/
theorem pin_terminated_loop_lost (hstop : 2 ^ 64 < stop + PAGE_SIZE) (fuel current matched pinned : Nat)
    (space space' : space_t σ τ) (n : Nat) :
    space_pin_terminated_loop env (lastByte stop) (lastByte objectSize) objectSize address stop userStack fuel current
      matched pinned space ≠ some (.ok n, space') := by
  induction fuel generalizing current matched pinned space with
  | zero => simp [space_pin_terminated_loop]
  | succ fuel ih =>
    rw [space_pin_terminated_loop]
    split
    · split
      · simp
      · have hend : min (ROUND_UP ((current + 1) % 2 ^ 64) PAGE_SIZE) stop < stop := by
          simp only [ROUND_UP, PAGE_SIZE] at hstop ⊢
          omega
        dsimp only
        split
        · simp
        · next hscan => exact absurd hscan (scanPage_lost hend)
        · exact ih _ _ _ _
    · simp

end Calls

/-- Every page is mapped. -/
def mappedSpace : space_t Nat Nat :=
  { emptySpace with
    pageTable := .mk (fun _ => PML_PRESENT) fun _ => .mk (fun _ => PML_PRESENT) fun _ => .mk (fun _ => PML_PRESENT) fun _ =>
      .mk (fun _ => PML_PRESENT) fun _ => .null }

/-- Three objects of four bytes, of which the second one is in two pages and the terminator. -/
def straddling (addr : Nat) : Nat := if addr < 0x1ffe then 7 else 0

end Patchwork.Space
