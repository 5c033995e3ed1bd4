import Patchwork.Mem.Terminator
import Patchwork.Lib.Runs
/-!
# Pin depths refine a counter

A counter for each page goes up by one with a pin of a region that the page is
in, and down by one with an unpin. The depths kept by `space.c` are these
counters over every run, whatever allocation fails, as long as the regions are
canonical: `space_pin` counts the pages of a region modulo `2 ^ 64` bytes, and
`space_pin_terminated` takes back the wrong pages where an object is larger than
a page.
-/

namespace Patchwork.Space

open Paging Lib

variable {σ τ : Type} (env : Env σ)

/-! ## Regions -/

/-- Some byte of the region is in page `v`. -/
def Covers (address length v : Nat) : Prop := ∃ b, address ≤ b ∧ b < address + length ∧ vpn b = v

theorem covers_iff_exists (address length v : Nat) :
    Covers address length v ↔ 0 < length ∧
      ∃ i ≤ (address + length - 1) / PAGE_SIZE - address / PAGE_SIZE, (address / PAGE_SIZE + i) % 2 ^ 36 = v := by
  unfold Covers vpn
  simp only [PAGE_SIZE]
  constructor
  · rintro ⟨b, h1, h2, rfl⟩
    exact ⟨by omega, b / 4096 - address / 4096, by omega, by omega⟩
  · rintro ⟨hlen, i, hi, rfl⟩
    -- The first byte of the page, or of the region.
    refine ⟨max address ((address / 4096 + i) * 4096), Nat.le_max_left _ _, ?_, ?_⟩
    · rw [Nat.max_lt]
      omega
    · rcases Nat.le_total ((address / 4096 + i) * 4096) address with h | h
      · rw [Nat.max_eq_left h]
        omega
      · rw [Nat.max_eq_right h]
        omega

theorem covers_iff (address length v : Nat) :
    Covers address length v ↔ 0 < length ∧ v < 2 ^ 36 ∧
      (v + 2 ^ 36 - address / PAGE_SIZE % 2 ^ 36) % 2 ^ 36 ≤ (address + length - 1) / PAGE_SIZE - address / PAGE_SIZE := by
  rw [covers_iff_exists]
  constructor
  · rintro ⟨h0, i, hi, rfl⟩
    omega
  · rintro ⟨h0, hv, hle⟩
    exact ⟨h0, _, hle, by omega⟩

instance (address length v : Nat) : Decidable (Covers address length v) :=
  decidable_of_iff _ (covers_iff address length v).symm

/-- The region is in one half of the address space. -/
def CanonicalRange (address length : Nat) : Prop :=
  address + length ≤ 2 ^ 47 ∨ 2 ^ 64 - 2 ^ 47 ≤ address ∧ address + length ≤ 2 ^ 64

instance (address length : Nat) : Decidable (CanonicalRange address length) := by
  unfold CanonicalRange
  infer_instance

section Pages
variable {address amount : Nat} (h : CanonicalRange (ROUND_DOWN address PAGE_SIZE) (amount * PAGE_SIZE))
include h

theorem canonical_pages : ∀ addr ∈ pageAddrs (ROUND_DOWN address PAGE_SIZE) amount, Canonical addr := by
  intro addr haddr
  obtain ⟨i, hi, rfl⟩ := List.mem_map.1 haddr
  have hi := List.mem_range.1 hi
  unfold CanonicalRange ROUND_DOWN at h
  unfold Canonical pageAddr vpn ROUND_DOWN
  rw [PAGE_SIZE] at h ⊢
  split <;> omega

theorem visits_pages (w : Nat) :
    visits (pageAddrs (ROUND_DOWN address PAGE_SIZE) amount) w =
      if w ∈ vpns (ROUND_DOWN address PAGE_SIZE) amount then 1 else 0 := by
  have hle : amount ≤ 2 ^ 36 := by
    unfold CanonicalRange at h
    rw [PAGE_SIZE] at h
    omega
  exact (vpns_nodup _ hle).count

end Pages

variable {address length : Nat}

/-- The pages of a region are those its bytes are in. -/
theorem mem_vpns_iff {amount : Nat} (h0 : 0 < length)
    (h : amount = (address % PAGE_SIZE + length + PAGE_SIZE - 1) / PAGE_SIZE) (w : Nat) :
    w ∈ vpns (ROUND_DOWN address PAGE_SIZE) amount ↔ Covers address length w := by
  rw [vpns_eq, List.mem_map, h, covers_iff_exists, ROUND_DOWN]
  simp only [PAGE_SIZE, List.mem_range]
  constructor
  · rintro ⟨i, hi, rfl⟩
    exact ⟨h0, i, by omega, by omega⟩
  · rintro ⟨-, i, hi, rfl⟩
    exact ⟨i, by omega, by omega⟩

/-! ## Pinning and unpinning a region -/

theorem align_pages (h0 : 0 < length) (h : CanonicalRange address length) :
    BYTES_TO_PAGES (space_align_region address length).2 = (address % PAGE_SIZE + length + PAGE_SIZE - 1) / PAGE_SIZE ∧
      CanonicalRange (ROUND_DOWN address PAGE_SIZE)
        ((address % PAGE_SIZE + length + PAGE_SIZE - 1) / PAGE_SIZE * PAGE_SIZE) := by
  unfold BYTES_TO_PAGES space_align_region ROUND_DOWN CanonicalRange at *
  simp only [PAGE_SIZE] at *
  omega

theorem ROUND_DOWN_align (address length : Nat) :
    ROUND_DOWN (space_align_region address length).1 PAGE_SIZE = (space_align_region address length).1 :=
  ROUND_DOWN_idem address

variable {space : space_t σ τ}

theorem pin_depths (hi : PinInv space) {buffer : Nat} (userStack : Option stack_pointer_t)
    (hc : CanonicalRange buffer length) (hbound : ∀ w < 2 ^ 36, depth space w + 1 < 2 ^ 64) :
    ∃ r space', space_pin env space buffer length userStack = (r, space') ∧
      Depths (fun w => depth space w + if r.isOk = true ∧ Covers buffer length w then 1 else 0) space space' := by
  -- A failure leaves the depths as they are.
  have hfail : ∀ err space1, Depths (depth space) space space1 →
      ∃ r space', ((Except.error err : Except errno_t Nat), space1) = (r, space') ∧
        Depths (fun w => depth space w + if r.isOk = true ∧ Covers buffer length w then 1 else 0) space space' :=
    fun err space1 h1 => ⟨.error err, space1, rfl, h1.congr fun w _ => by simp [Except.isOk, Except.toBool]⟩
  unfold space_pin
  split
  · exact hfail _ _ (.refl hi)
  split
  · rename_i hzero
    refine ⟨.ok 0, space, rfl, (Depths.refl hi).congr fun w _ => ?_⟩
    have hnot : ¬Covers buffer length w := fun ⟨b, h1, h2, _⟩ => by omega
    rw [if_neg fun h => hnot h.2]
    rfl
  rename_i hlen
  have h0 : 0 < length := Nat.pos_of_ne_zero hlen
  split
  · exact hfail _ _ (.refl hi)
  obtain ⟨hpages, hcan⟩ := align_pages h0 hc
  simp only
  split
  · exact hfail _ _ (.refl hi)
  have hmapped := fun hm => (is_mapped_iff env space.pageTable space.mem (space_align_region buffer length).1
    (BYTES_TO_PAGES (space_align_region buffer length).2)).1 hm
  obtain ⟨ok, space1, hpop, h1, hpres⟩ := populateUnless_depths env hi _ _ _ hmapped
  simp only [hpop]
  cases ok with
  | false => exact hfail _ _ h1
  | true =>
    rw [← hpages] at hcan
    have hvisits := visits_pages hcan
    have hround := ROUND_DOWN_align buffer length
    obtain ⟨ok, space2, hinc, h2⟩ := pin_depth_inc_depths env h1.inv (space_align_region buffer length).1
      (BYTES_TO_PAGES (space_align_region buffer length).2)
      (by rw [hround]; exact canonical_pages hcan) (by rw [hround]; exact hpres rfl) (by
        intro w hw
        have := hbound w hw
        rw [h1.depth w hw, hround, show (space_align_region buffer length).1 = ROUND_DOWN buffer PAGE_SIZE from rfl, hvisits]
        split <;> omega)
    simp only [hinc]
    rw [hround] at h2
    cases ok with
    | false => exact hfail _ _ (h1.trans (h2.congr fun w hw => h1.depth w hw))
    | true =>
      refine ⟨.ok 0, space2, rfl, h1.trans (h2.congr fun w hw => ?_)⟩
      rw [h1.depth w hw, if_pos rfl, show (space_align_region buffer length).1 = ROUND_DOWN buffer PAGE_SIZE from rfl,
        hvisits]
      congr 1
      rw [if_congr (mem_vpns_iff h0 hpages w) rfl rfl]
      simp [Except.isOk, Except.toBool]

theorem unpin_depths (hi : PinInv space) (hc : CanonicalRange address length)
    (hend : address + length < 2 ^ 64) (haddr : address ≠ 0 ∨ length = 0) :
    Depths (fun w => depth space w - if Covers address length w then 1 else 0) space
      (space_unpin env space address length) := by
  unfold space_unpin
  rw [if_neg (by omega)]
  split
  · rename_i hzero
    refine (Depths.refl hi).congr fun w _ => ?_
    have hnot : ¬Covers address length w := fun ⟨b, h1, h2, _⟩ => by omega
    rw [if_neg hnot]
    rfl
  rename_i hlen
  have h0 : 0 < length := Nat.pos_of_ne_zero hlen
  rw [if_neg (by omega)]
  obtain ⟨hpages, hcan⟩ := align_pages h0 hc
  rw [← hpages] at hcan
  have hround : ROUND_DOWN (space_align_region address length).1 PAGE_SIZE = ROUND_DOWN address PAGE_SIZE :=
    ROUND_DOWN_idem address
  simp only
  refine (pin_depth_dec_depths env hi _ _ ?_).congr fun w _ => ?_
  · rw [hround]
    exact canonical_pages hcan
  · rw [hround, visits_pages hcan, if_congr (mem_vpns_iff h0 hpages w) rfl rfl]

/-! ## Scanning for a terminator -/

theorem ROUND_DOWN_bounds (a : Nat) :
    ROUND_DOWN a PAGE_SIZE ≤ a ∧ a < ROUND_DOWN a PAGE_SIZE + PAGE_SIZE ∧ ROUND_DOWN a PAGE_SIZE % PAGE_SIZE = 0 := by
  simp only [ROUND_DOWN, PAGE_SIZE]
  omega

theorem ROUND_DOWN_eq {a b : Nat} (h : b % PAGE_SIZE = 0) (h1 : b ≤ a) (h2 : a < b + PAGE_SIZE) :
    ROUND_DOWN a PAGE_SIZE = b := by
  simp only [ROUND_DOWN, PAGE_SIZE] at *
  omega

theorem ROUND_UP_eq {a b : Nat} (h : b % PAGE_SIZE = 0) (h1 : a < b) (h2 : b ≤ a + PAGE_SIZE)
    (hend : b + PAGE_SIZE ≤ 2 ^ 64) : ROUND_UP ((a + 1) % 2 ^ 64) PAGE_SIZE = b := by
  simp only [ROUND_UP, PAGE_SIZE] at *
  omega

/-- `current` is in the page after the first `k` pages from `address` on, or
behind the end. -/
structure At (address stop k current : Nat) : Prop where
  low : address ≤ current
  reached : ROUND_DOWN address PAGE_SIZE + k * PAGE_SIZE < stop + PAGE_SIZE
  page : current < stop → ROUND_DOWN current PAGE_SIZE = ROUND_DOWN address PAGE_SIZE + k * PAGE_SIZE

variable {k : Nat}

theorem At.next {stop current : Nat} (h : At address stop k current) (hlt : current < stop) :
    ROUND_DOWN address PAGE_SIZE + (k + 1) * PAGE_SIZE < stop + PAGE_SIZE ∧
      (ROUND_DOWN address PAGE_SIZE + (k + 1) * PAGE_SIZE) % PAGE_SIZE = 0 ∧
      ROUND_DOWN address PAGE_SIZE + (k + 1) * PAGE_SIZE ≤ current + PAGE_SIZE ∧
      current < ROUND_DOWN address PAGE_SIZE + (k + 1) * PAGE_SIZE := by
  obtain ⟨-, -, hbase⟩ := ROUND_DOWN_bounds address
  obtain ⟨hlow, hhigh, -⟩ := ROUND_DOWN_bounds current
  rw [h.page hlt] at hlow hhigh
  have hsucc : (k + 1) * PAGE_SIZE = k * PAGE_SIZE + PAGE_SIZE := Nat.succ_mul k PAGE_SIZE
  refine ⟨by omega, ?_, by omega, by omega⟩
  rw [Nat.add_mul_mod_self_right]
  exact hbase

section Next
variable {address current k : Nat} (h : ROUND_DOWN current PAGE_SIZE = ROUND_DOWN address PAGE_SIZE + k * PAGE_SIZE)
include h

theorem pageAddrs_next : pageAddrs (ROUND_DOWN address PAGE_SIZE) (k + 1) =
    pageAddrs (ROUND_DOWN address PAGE_SIZE) k ++ pageAddrs (ROUND_DOWN current PAGE_SIZE) 1 := by
  rw [pageAddrs_succ, h]
  simp [pageAddrs]

theorem visits_next (w : Nat) : visits (pageAddrs (ROUND_DOWN address PAGE_SIZE) (k + 1)) w =
    visits (pageAddrs (ROUND_DOWN address PAGE_SIZE) k) w + visits (pageAddrs (ROUND_DOWN current PAGE_SIZE) 1) w := by
  rw [pageAddrs_next h, visits_append]

theorem mem_next {addr : Nat} (ha : addr ∈ pageAddrs (ROUND_DOWN current PAGE_SIZE) 1) :
    addr ∈ pageAddrs (ROUND_DOWN address PAGE_SIZE) (k + 1) := by
  rw [pageAddrs_next h]
  exact List.mem_append_right _ ha

end Next

/-- A page is mapped if it has to be, and pinned; or no depth changes. -/
theorem pinPage_depths (hi : PinInv space) (userStack : Option stack_pointer_t) (current : Nat)
    (hcan : ∀ addr ∈ pageAddrs (ROUND_DOWN current PAGE_SIZE) 1, Canonical addr)
    (hbound : ∀ w < 2 ^ 36, depth space w + visits (pageAddrs (ROUND_DOWN current PAGE_SIZE) 1) w < 2 ^ 64) :
    ∃ r space', pinPage env userStack current space = (r, space') ∧
      Depths (fun w => depth space w + if r.isOk = true then visits (pageAddrs (ROUND_DOWN current PAGE_SIZE) 1) w else 0)
        space space' := by
  have hvpn : vpns current 1 = vpns (ROUND_DOWN current PAGE_SIZE) 1 := by
    have hsame : vpn (current % 2 ^ 64) = vpn (ROUND_DOWN current PAGE_SIZE % 2 ^ 64) := by
      simp only [vpn, ROUND_DOWN, PAGE_SIZE]
      omega
    rw [vpns_one, vpns_one, hsame]
  unfold pinPage
  simp only
  split
  · exact ⟨_, _, rfl, .refl hi⟩
  have hmapped := fun hm => (is_mapped_iff env space.pageTable space.mem current 1).1 hm
  rw [hvpn] at hmapped
  obtain ⟨ok, space1, hpop, h1, hpres⟩ := populateUnless_depths env hi _ _ _ hmapped
  simp only [hpop]
  cases ok with
  | false => exact ⟨_, _, rfl, h1⟩
  | true =>
    obtain ⟨ok, space2, hinc, h2⟩ := pin_depth_inc_depths env h1.inv current 1 hcan (hpres rfl) fun w hw => by
      rw [h1.depth w hw]
      exact hbound w hw
    simp only [hinc]
    have hd := h1.trans (h2.congr fun w hw => by rw [h1.depth w hw])
    cases ok with
    | false => exact ⟨_, _, rfl, hd⟩
    | true => exact ⟨_, _, rfl, hd⟩

/-- What a call of `space_pin_terminated` does to the depths. -/
def Terminated (address : Nat) (space space' : space_t σ τ) : Except errno_t Nat → Prop
  | .ok result => Depths (fun w => depth space w + if Covers address result w then 1 else 0) space space'
  | .error _ => Depths (depth space) space space'

section Terminated
variable {objectSize address stop : Nat} (hsize : objectSize ≤ PAGE_SIZE)
  (hstop : stop ≤ 2 ^ 64 - PAGE_SIZE) (hcan : CanonicalRange address (stop - address)) (hle : address ≤ stop)
include hstop hcan hle

theorem canonical_at (h : ROUND_DOWN address PAGE_SIZE + k * PAGE_SIZE < stop + PAGE_SIZE) :
    CanonicalRange (ROUND_DOWN address PAGE_SIZE) (k * PAGE_SIZE) := by
  obtain ⟨h1, h2, h3⟩ := ROUND_DOWN_bounds address
  simp only [CanonicalRange, PAGE_SIZE] at h h2 h3 hstop hcan ⊢
  omega

theorem terminated_error {space0 : space_t σ τ} (hk : ROUND_DOWN address PAGE_SIZE + k * PAGE_SIZE < stop + PAGE_SIZE)
    (hd : Depths (fun w => depth space0 w + visits (pageAddrs (ROUND_DOWN address PAGE_SIZE) k) w) space0 space) :
    Depths (depth space0) space0 (space_pin_depth_dec env space address k) := by
  have hpages := canonical_pages (canonical_at hstop hcan hle hk)
  refine hd.trans ((pin_depth_dec_depths env hd.inv address k hpages).congr fun w hw => ?_)
  rw [hd.depth w hw, Nat.add_sub_cancel]

include hsize

theorem pin_terminated_loop_depths {maxCount : Nat} (hcount : stop = address + maxCount * objectSize)
    (bytes terminator : Nat → Nat) (userStack : Option stack_pointer_t) {space0 : space_t σ τ}
    (hbound : ∀ w < 2 ^ 36, depth space0 w + 1 < 2 ^ 64) (fuel : Nat) :
    ∀ {current matched j k : Nat} {space : space_t σ τ}, At address stop k current →
      Matched bytes terminator objectSize address j current matched → stop - current < fuel →
      Depths (fun w => depth space0 w + visits (pageAddrs (ROUND_DOWN address PAGE_SIZE) k) w) space0 space →
      ∃ r space', space_pin_terminated_loop env bytes terminator objectSize address stop userStack fuel current matched k
          space = some (r, space') ∧ Terminated address space0 space' r := by
  induction fuel with
  | zero => exact fun _ _ h _ => absurd h (Nat.not_lt_zero _)
  | succ fuel ih =>
    intro current matched j k space hat hmatched hfuel hd
    rw [space_pin_terminated_loop]
    split
    swap
    · exact ⟨_, _, rfl, terminated_error env hstop hcan hle hat.reached hd⟩
    rename_i hlt
    obtain ⟨hreached, haligned, hcur1, hcur2⟩ := hat.next hlt
    have hcan' := canonical_at hstop hcan hle hreached
    have hvisits := visits_next (hat.page hlt)
    obtain ⟨r, space1, hpin, h1⟩ := pinPage_depths env hd.inv userStack current
      (fun addr haddr => canonical_pages hcan' addr (mem_next (hat.page hlt) haddr))
      (fun w hw => by
        have hb := hbound w hw
        have hone := visits_pages hcan' w
        rw [hvisits] at hone
        rw [hd.depth w hw, Nat.add_assoc, hone]
        split <;> omega)
    rw [hpin]
    have hd1 := hd.trans h1
    cases r with
    | error err =>
      refine ⟨_, _, rfl, terminated_error env hstop hcan hle hat.reached (hd1.congr fun w hw => ?_)⟩
      rw [hd.depth w hw]
      rfl
    | ok =>
      have hd2 : Depths (fun w => depth space0 w + visits (pageAddrs (ROUND_DOWN address PAGE_SIZE) (k + 1)) w) space0
          space1 := hd1.congr fun w hw => by
        rw [hd.depth w hw, hvisits, Nat.add_assoc]
        rfl
      have hroom : ROUND_DOWN address PAGE_SIZE + (k + 1) * PAGE_SIZE + PAGE_SIZE ≤ 2 ^ 64 := by
        have hmul := Nat.dvd_of_mod_eq_zero haligned
        simp only [PAGE_SIZE] at hmul hreached hstop ⊢
        omega
      simp only
      rw [ROUND_UP_eq haligned hcur2 hcur1 hroom]
      generalize hscan : min (ROUND_DOWN address PAGE_SIZE + (k + 1) * PAGE_SIZE) stop = scanEnd
      obtain ⟨scan, hscanned, hspec⟩ := scanPage_spec (hcount ▸ by omega) (hcount ▸ hscan ▸ Nat.min_le_right _ _) hmatched
        (by omega)
      rw [hscanned]
      cases scan with
      | found result =>
        refine ⟨_, _, rfl, hd2.congr fun w _ => ?_⟩
        obtain ⟨-, ha1, ha2⟩ := hspec
        have hlow := hat.low
        have hpages : k + 1 = (address % PAGE_SIZE + result + PAGE_SIZE - 1) / PAGE_SIZE := by
          simp only [ROUND_DOWN, PAGE_SIZE] at *
          omega
        rw [visits_pages hcan', if_congr (mem_vpns_iff (by omega) hpages w) rfl rfl]
      | more current' matched' =>
        obtain ⟨hm1, hm2, -, j', hm3⟩ := hspec
        have hlow := hat.low
        refine ih ⟨by omega, hreached, fun hlt' => ?_⟩ hm3 (by omega) hd2
        exact ROUND_DOWN_eq haligned (by omega) (by omega)

end Terminated

/-- The call of `space_pin_terminated` is well-behaved: an object fits in a page,
and the objects are in one half of the address space and not in its last page. -/
def Scannable (address objectSize maxCount : Nat) : Prop :=
  objectSize ≤ PAGE_SIZE ∧ CanonicalRange address (maxCount * objectSize) ∧
    address + maxCount * objectSize ≤ 2 ^ 64 - PAGE_SIZE

instance (address objectSize maxCount : Nat) : Decidable (Scannable address objectSize maxCount) := by
  unfold Scannable
  infer_instance

theorem pin_terminated_depths (hi : PinInv space) {objectSize maxCount : Nat}
    (bytes terminator : Nat → Nat) (userStack : Option stack_pointer_t) (hs : Scannable address objectSize maxCount)
    (hbound : ∀ w < 2 ^ 36, depth space w + 1 < 2 ^ 64) :
    ∃ r space', space_pin_terminated env space address bytes terminator objectSize maxCount userStack = some (r, space') ∧
      Terminated address space space' r := by
  obtain ⟨hsize, hcan, hend⟩ := hs
  unfold space_pin_terminated
  split
  · exact ⟨_, _, rfl, .refl hi⟩
  have hstop : (address + maxCount * objectSize) % 2 ^ 64 = address + maxCount * objectSize := by
    exact Nat.mod_eq_of_lt (by omega)
  simp only [hstop]
  rw [if_neg (by omega)]
  obtain ⟨hlow, hhigh, -⟩ := ROUND_DOWN_bounds address
  refine pin_terminated_loop_depths env hsize hend ?_ (Nat.le_add_right _ _) rfl bytes terminator userStack hbound scanFuel
    ⟨Nat.le_refl _, ?_, fun _ => ?_⟩ (matched_start (by omega)) ?_ ((Depths.refl hi).congr fun w _ => rfl)
  · rw [Nat.add_sub_cancel_left]
    exact hcan
  · omega
  · rw [Nat.zero_mul, Nat.add_zero]
  · unfold scanFuel
    rw [PAGE_SIZE] at hend
    omega

/-! ## Every run -/

inductive PinAction where
  | pin (buffer length : Nat) (userStack : Option stack_pointer_t)
  | pinTerminated (address : Nat) (bytes terminator : Nat → Nat) (objectSize maxCount : Nat)
      (userStack : Option stack_pointer_t)
  | unpin (address length : Nat)

/-- An address space, the counter of each page, and how many pins there were. -/
structure Pins (σ τ : Type) where
  space : space_t σ τ
  counter : Nat → Nat
  pins : Nat

/-- The counters after a call with this result. -/
def counted (counter : Nat → Nat) (address length : Nat) : Except errno_t Nat → Nat → Nat
  | .ok _, v => counter v + if Covers address length v then 1 else 0
  | .error _, v => counter v

/-- The length of the region that is pinned: `space_pin_terminated` returns it. -/
def pinnedLength : Except errno_t Nat → Nat
  | .ok result => result
  | .error _ => 0

def pinStep (s : Pins σ τ) : PinAction → Option (Pins σ τ)
  | .pin buffer length userStack =>
    let r := space_pin env s.space buffer length userStack
    some { space := r.2, counter := counted s.counter buffer length r.1, pins := s.pins + 1 }
  | .pinTerminated address bytes terminator objectSize maxCount userStack =>
    match space_pin_terminated env s.space address bytes terminator objectSize maxCount userStack with
    | none => none
    | some (r, space) =>
      some { space := space, counter := counted s.counter address (pinnedLength r) r, pins := s.pins + 1 }
  | .unpin address length =>
    some { s with
      space := space_unpin env s.space address length
      counter := fun v => s.counter v - if Covers address length v then 1 else 0 }

/-- The depths are the counters, so a page is pinned while its counter is
positive. -/
structure Refines (s : Pins σ τ) : Prop where
  inv : PinInv s.space
  depth : ∀ v < 2 ^ 36, depth s.space v = s.counter v
  pinned : ∀ v < 2 ^ 36, Entry.pinned (page s.space.pageTable v) = true ↔ 0 < s.counter v
  bound : ∀ v < 2 ^ 36, s.counter v ≤ s.pins

/-- The regions are canonical, and the count of pins fits its type. -/
def Regular (s : Pins σ τ) : PinAction → Prop
  | .pin buffer length _ => CanonicalRange buffer length ∧ s.pins + 1 < 2 ^ 64
  | .pinTerminated address _ _ objectSize maxCount _ => Scannable address objectSize maxCount ∧ s.pins + 1 < 2 ^ 64
  | .unpin address length =>
    CanonicalRange address length ∧ address + length < 2 ^ 64 ∧ (address ≠ 0 ∨ length = 0)

instance (s : Pins σ τ) (a : PinAction) : Decidable (Regular s a) := by
  cases a <;> unfold Regular <;> infer_instance

theorem refines_of_depths (space : space_t σ τ) {s' : Pins σ τ} (hd : Depths s'.counter space s'.space)
    (hb : ∀ v < 2 ^ 36, s'.counter v ≤ s'.pins) : Refines s' where
  inv := hd.inv
  depth := hd.depth
  pinned v hv := by
    rw [hd.inv.pinned_iff, hd.depth v hv]
  bound := hb

theorem counted_le (counter : Nat → Nat) (address length : Nat) (r : Except errno_t Nat) {v pins : Nat}
    (h : counter v ≤ pins) : counted counter address length r v ≤ pins + 1 := by
  cases r with
  | error err => exact h.trans (Nat.le_succ pins)
  | ok result =>
    show (counter v + if Covers address length v then 1 else 0) ≤ pins + 1
    split <;> omega

/-- A regular call returns, and the counters after it are the depths. -/
theorem Refines.step {s : Pins σ τ} {a : PinAction} (h : Refines s) (ha : Regular s a) :
    ∃ s', pinStep env s a = some s' ∧ Refines s' := by
  have hbound : s.pins + 1 < 2 ^ 64 → ∀ w < 2 ^ 36, Space.depth s.space w + 1 < 2 ^ 64 := by
    intro hpins w hw
    have h1 := h.depth w hw
    have h2 := h.bound w hw
    omega
  cases a with
  | pin buffer length userStack =>
    obtain ⟨hc, hpins⟩ := ha
    obtain ⟨r, space', heq, hd⟩ := pin_depths env h.inv userStack hc (hbound hpins)
    refine ⟨_, rfl, refines_of_depths s.space ?_ fun v hv => counted_le _ _ _ _ (h.bound v hv)⟩
    simp only [heq]
    refine hd.congr fun w hw => ?_
    rw [h.depth w hw]
    cases r with
    | error err => rfl
    | ok result => simp [counted, Except.isOk, Except.toBool]
  | pinTerminated address bytes terminator objectSize maxCount userStack =>
    obtain ⟨hs, hpins⟩ := ha
    obtain ⟨r, space', heq, hd⟩ := pin_terminated_depths env h.inv bytes terminator userStack hs (hbound hpins)
    refine ⟨{ space := space', counter := counted s.counter address (pinnedLength r) r, pins := s.pins + 1 }, ?_, ?_⟩
    · simp only [pinStep, heq]
    · refine refines_of_depths s.space ?_ fun v hv => counted_le _ _ _ _ (h.bound v hv)
      cases r with
      | error err => exact hd.congr h.depth
      | ok result =>
        refine hd.congr fun w hw => ?_
        rw [h.depth w hw]
        rfl
  | unpin address length =>
    obtain ⟨hc, hend, haddr⟩ := ha
    refine ⟨_, rfl, refines_of_depths s.space ((unpin_depths env h.inv hc hend haddr).congr fun w hw => ?_) fun v hv => ?_⟩
    · rw [h.depth w hw]
    · exact (Nat.sub_le _ _).trans (h.bound v hv)

/-- Over every run of regular calls each call returns and the depths are the
counters. -/
theorem pins_refine_counter {s : Pins σ τ} {as : List PinAction} (h : Refines s)
    (ha : Along (pinStep env) Regular s as) :
    Always (pinStep env) Refines s as ∧ ∃ s', run (pinStep env) s as = some s' := by
  refine ⟨ha.always (fun s a s' hr hok hs => ?_) h, ?_⟩
  · obtain ⟨s1, hs1, h1⟩ := hr.step env hok
    rw [hs] at hs1
    rwa [Option.some.inj hs1]
  · induction as generalizing s with
    | nil => exact ⟨s, rfl⟩
    | cons a as ih =>
      obtain ⟨s1, hs1, h1⟩ := h.step env ha.1
      obtain ⟨s', hs'⟩ := ih h1 (ha.2 s1 hs1)
      exact ⟨s', by rw [run, hs1]; exact hs'⟩

def unpinned : Pins Nat Nat := { space := emptySpace, counter := fun _ => 0, pins := 0 }

theorem refines_empty : Refines unpinned := by
  have ht : ∀ v, Entry.pinned (page unpinned.space.pageTable v) = false := fun v => by
    rw [show page unpinned.space.pageTable v = 0#64 from leaf_zero _ 3]
    rfl
  refine ⟨⟨fun v _ hp => ?_, nofun⟩, fun v _ => ?_, fun v _ => ?_, fun _ _ => Nat.le_refl 0⟩
  · exact absurd ((ht v).symm.trans hp) nofun
  · rw [depth, ht v]
    rfl
  · rw [ht v]
    exact iff_of_false Bool.false_ne_true (Nat.lt_irrefl 0)

/-- Two pages of a stack are pinned, the first once more, and the two unpinned:
the first is pinned still. -/
theorem stackPins_refine :
    (run (pinStep bump) unpinned
        [.pin 0x400000 0x1001 (some { top := 0x500000, bottom := 0x300000 }), .pin 0x400fff 1 none,
          .unpin 0x400000 0x1001]).map (fun s => (depth s.space 0x400, depth s.space 0x401)) = some (1, 0) ∧
      Always (pinStep bump) Refines unpinned
        [.pin 0x400000 0x1001 (some { top := 0x500000, bottom := 0x300000 }), .pin 0x400fff 1 none,
          .unpin 0x400000 0x1001] ∧
      ∃ s', run (pinStep bump) unpinned
        [.pin 0x400000 0x1001 (some { top := 0x500000, bottom := 0x300000 }), .pin 0x400fff 1 none,
          .unpin 0x400000 0x1001] = some s' :=
  ⟨by decide +kernel, pins_refine_counter bump refines_empty (by decide +kernel)⟩

/-- A region of nearly all addresses has no pages modulo `2 ^ 64` bytes: the pin
succeeds and pins none of them. -/
theorem wholeSpace_not_pinned :
    (pinStep bump unpinned (.pin 1 (2 ^ 64 - 2) none)).map (fun s => (depth s.space 0x400, s.counter 0x400)) =
      some (0, 1) := by
  decide +kernel

end Patchwork.Space
