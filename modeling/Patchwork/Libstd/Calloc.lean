import Patchwork.Libstd.Zeroed
/-!
# `malloc`, `calloc`, `realloc` and `free`

`calloc` does not fill a block that has the flag `_HEAP_ZEROED`. Such a block is
zero whatever was called before, as long as the callers write inside their blocks.
The one way out is a size that wraps: `_heap_alloc` adds the size of a header to a
size above the threshold, and within 63 bytes of `2 ^ 64` that leaves a single page.
`calloc` then returns a block that is too small, and `realloc` copies beyond it.

A pointer to the data of a block is known by the block.
-/

namespace Patchwork.Heap

open List Option Function Lib

variable {env : Env} {h h' : heap_t} {a b n x size : Nat} {e : Option Nat} {answer : Option Nat}
  {mem : Nat → UInt8}

def memset (mem : Nat → UInt8) (dest : Nat) (value : UInt8) (count : Nat) : Nat → UInt8 :=
  fun x => if dest ≤ x ∧ x < dest + count then value else mem x

def memcpy (mem : Nat → UInt8) (dest src count : Nat) : Nat → UInt8 :=
  fun x => if dest ≤ x ∧ x < dest + count then mem (src + (x - dest)) else mem x

/-- `block->flags &= ~_HEAP_ZEROED`. -/
def heap_t.clearZeroed (env : Env) (h : heap_t) (block : Nat) : heap_t :=
  h.setHeader env block { h.header block with zeroed := false }

def malloc (env : Env) (h : heap_t) (size : Nat) (answer : Option Nat) : Option (heap_t × Option Nat) :=
  match heap_alloc env h size answer with
  | none => none
  | some (h, none) => some (h, none)
  | some (h, some block) => some (h.clearZeroed env block, some block)

/-- The `memset` of `calloc`. -/
def fill (h : heap_t) (block totalSize : Nat) : heap_t :=
  if (h.header block).zeroed then h
  else { h with mem := memset h.mem (block + HEADER_SIZE) 0 totalSize }

def calloc (env : Env) (h : heap_t) (nmemb size : Nat) (answer : Option Nat) : Option (heap_t × Option Nat) :=
  let totalSize := nmemb * size % 2 ^ 64
  if size ≠ 0 ∧ totalSize / size ≠ nmemb then some (h, none)
  else
    match heap_alloc env h totalSize answer with
    | none => none
    | some (h, none) => some (h, none)
    | some (h, some block) => some ((fill h block totalSize).clearZeroed env block, some block)

def free (env : Env) (h : heap_t) : (ptr : Option Nat) → Option heap_t
  | none => some h
  | some block => heap_free env h block

/-- `realloc` from `direct_alloc` on. -/
def directAlloc (env : Env) (h : heap_t) (block size : Nat) (answer : Option Nat) : Option (heap_t × Option Nat) :=
  match malloc env h size answer with
  | none => none
  | some (h, none) => some (h, none)
  | some (h, some newBlock) =>
    let count := min (h.size block) size
    let h := { h with mem := memcpy h.mem (newBlock + HEADER_SIZE) (block + HEADER_SIZE) count }
    (free env h (some block)).map fun h => (h, some newBlock)

def realloc (env : Env) (h : heap_t) (ptr : Option Nat) (size : Nat) (answer : Option Nat) :
    Option (heap_t × Option Nat) :=
  match ptr with
  | none => malloc env h size answer
  | some block =>
    if size = 0 then (free env h (some block)).map fun h => (h, none)
    else
      match reallocInPlace env h block size with
      | none => none
      | some (h, true) => some (h, some block)
      | some (h, false) => directAlloc env h block size answer

/-! ## Between two calls -/

/-- The heap between two calls. -/
structure Tidy (h : heap_t) : Prop where
  inv : Inv h none
  clean : Clean h none

theorem Clean.release (hc : Clean h (some a)) (ha : (h.header a).zeroed = false) : Clean h none := by
  have hne : ∀ b, (h.header b).zeroed = true → some a ≠ some b := by
    intro b hb he
    rw [← Option.some.inj he, ha] at hb
    cases hb
  refine ⟨hc.zero, fun b hb hz _ => hc.tail b hb hz (hne b hz), fun b hb hall _ => ?_, hc.runs, hc.large⟩
  by_cases hz : (h.header b).zeroed = true
  · exact hc.busy b hb hall (hne b hz)
  · exact Bool.not_eq_true _ ▸ hz

theorem clearZeroed_fields (env : Env) (h : heap_t) (a b : Nat) :
    ((h.clearZeroed env a).header b).allocated = (h.header b).allocated ∧
      ((h.clearZeroed env a).header b).mapped = (h.header b).mapped ∧ (h.clearZeroed env a).size b = h.size b := by
  by_cases hba : b = a
  · simp [heap_t.clearZeroed, heap_t.setHeader, heap_t.size, hba]
  · simp [heap_t.clearZeroed, heap_t.setHeader, heap_t.size, hba]

theorem live_clearZeroed : Live (h.clearZeroed env a) b ↔ Live h b := by
  unfold Live
  rw [(clearZeroed_fields env h a b).1]
  rfl

theorem inv_clearZeroed (hi : Inv h none) (ha : Live h a) : Inv (h.clearZeroed env a) none := by
  have hfields := clearZeroed_fields env h a
  rcases ha with hlarge | ⟨ha, hall⟩
  · refine hi.frame rfl rfl rfl rfl (fun b hb => update_of_ne ?_ ..) (fun b hb => ?_) fun b hb => ?_
    · rintro rfl
      exact hi.notMem_large hb (contains_self h b) hlarge
    · rw [(hfields b).2.1]
      exact hi.mapped b hb
    · rw [heap_t.segment, (hfields b).2.2]
      exact hi.outside b hb
  · have hheld : Inv (h.clearZeroed env a) (some a) := (hi.hold hall).setFlags ha rfl (hi.unmapped a ha)
    refine hheld.letGo ?_ ?_
    · rw [(hfields a).1]
      exact hall
    · rw [(hfields a).2.2]
      exact hi.small a ha (by rintro ⟨⟩)

theorem tidy_clearZeroed (hi : Inv h none) (hc : Clean h (some a)) (ha : a ∈ h.heapList)
    (hall : (h.header a).allocated = true) : Tidy (h.clearZeroed env a) := by
  constructor
  · exact inv_clearZeroed hi (.inr ⟨ha, hall⟩)
  · refine hc.update hi ha rfl (fun _ hb => hb) (fun x hx => mem_setHeader hx) rfl rfl ?_ nofun fun _ _ => rfl
    intro b _
    by_cases hba : b = a
    · exact .inr ⟨hba, rfl⟩
    · exact .inl fun he => hba (Option.some.inj he).symm

theorem tidy_large (ht : Tidy h) {len : Nat} (hfresh : Fresh h (a, len)) (hlen : HEADER_SIZE ≤ len) :
    Tidy ((largeHeap env h a len).clearZeroed env a) := by
  have hl : Inv (largeHeap env h a len) none := inv_large ht.inv hfresh hlen
  have hanot := hfresh.notMem ht.inv
  have hself' : ((largeHeap env h a len).clearZeroed env a).header a =
      { (largeHeap env h a len).header a with zeroed := false } := update_self ..
  have hother : ∀ b, b ≠ a → ((largeHeap env h a len).clearZeroed env a).header b = h.header b :=
    fun b hba => (update_of_ne hba _ _).trans (update_of_ne hba _ _)
  obtain ⟨-, -, -, hruns, -⟩ := hfresh
  constructor
  · exact inv_clearZeroed hl (.inl mem_cons_self)
  · refine ht.clean.frame rfl rfl (fun b hb => hother b fun he => hanot (he ▸ hb)) (fun b hb hz x hx => ?_) fun b hb => ?_
    · -- The data of a block is outside the new memory.
      obtain ⟨r, hr, hrx⟩ := ht.inv.mem_run hb hx.contains
      have hout : ¬ (a ≤ x ∧ x < a + len) := fun hax => (hruns r hr).not_both hax hrx
      have hout' : ¬ (a ≤ x ∧ x < a + HEADER_SIZE) := fun hax => hout ⟨hax.1, by omega⟩
      exact (mem_setHeader hout').trans ((mem_setHeader hout').trans (if_neg hout))
    · by_cases hba : b = a
      · rw [hba, hself']
      · rw [hother b hba]
        exact ht.clean.large b ((mem_cons.1 hb).resolve_left hba)

/-! ## Writing to a block -/

/-- Bytes are written inside a live block without the flag. -/
theorem Clean.write (hc : Clean h e) (hi : Inv h none) (ha : Live h a) (hz : (h.header a).zeroed = false)
    (hmem : ∀ x, ¬ InData h a x → mem x = h.mem x) : Clean { h with mem := mem } e := by
  refine hc.frame rfl rfl (fun _ _ => rfl) (fun b hb hzb x hx => ?_) hc.large
  have hout : ¬ InData h a x := by
    intro hxa
    rcases ha with hlarge | ⟨ha, -⟩
    · obtain ⟨r, hr, hrx⟩ := hi.mem_run hb hx.contains
      exact (hi.outside a hlarge r hr).not_both hxa.contains hrx
    · obtain rfl := hi.eq_of_contains ha hb hxa.contains hx.contains
      rw [hz] at hzb
      cases hzb
  exact hmem x hout

theorem inv_mem (hi : Inv h none) : Inv { h with mem := mem } none :=
  hi.frame rfl rfl rfl rfl (fun _ _ => rfl) hi.mapped hi.outside

theorem Tidy.zeroed (ht : Tidy h) (ha : Live h a) : (h.header a).zeroed = false := by
  rcases ha with hlarge | ⟨ha, hall⟩
  · exact ht.clean.large a hlarge
  · exact ht.clean.busy a ha hall nofun

theorem Tidy.write (ht : Tidy h) (ha : Live h a) (hmem : ∀ x, ¬ InData h a x → mem x = h.mem x) :
    Tidy { h with mem := mem } :=
  ⟨inv_mem ht.inv, ht.clean.write ht.inv ha (ht.zeroed ha) hmem⟩

theorem outside_data {count : Nat} (hn : count ≤ h.size a) (hx : ¬ InData h a x) :
    ¬(a + HEADER_SIZE ≤ x ∧ x < a + HEADER_SIZE + count) := by
  rintro ⟨hle, hlt⟩
  refine hx ⟨hle, ?_⟩
  rw [stop_segment]
  exact hlt.trans_le (Nat.add_le_add_left hn _)

/-! ## The calls -/

theorem largeLength_enough (hsize : size + HEADER_SIZE ≤ 2 ^ 64) (hpos : 0 < largeLength size) :
    size ≤ largeLength size - HEADER_SIZE := by
  simp only [largeLength, BYTES_TO_PAGES, HEADER_SIZE, PAGE_SIZE] at *
  omega

theorem Tidy.carried (ht : Tidy h) : Zeroed none h := ⟨ht.clean, nofun⟩

/-- What a call that hands out a block leaves. -/
structure Given (h : heap_t) (size : Nat) (h' : heap_t) (a : Nat) : Prop where
  tidy : Tidy h'
  live : Live h' a
  others : ∀ b, Live h b → Live h' b
  enough : size + HEADER_SIZE ≤ 2 ^ 64 → size ≤ h'.size a

/-- The block that `_heap_alloc` hands out is a new one, and those of the callers stay. -/
theorem alloc_given (hi : Inv h none) (hr : heap_alloc env h size answer = some (h', some a)) :
    Inv h' none ∧ Live h' a ∧ (∀ b, Live h b → Live h' b ∧ a ≠ b) ∧
      (size + HEADER_SIZE ≤ 2 ^ 64 → size ≤ h'.size a) := by
  obtain ⟨hcase, hnew⟩ := heap_alloc_rule carried_true hi trivial hr
  have hne : ∀ b, Live h b → a ≠ b := fun b hb he => hnew a rfl (he ▸ hb)
  cases hcase with
  | small h₀ _ _ _ hh hsize hlarge hothers =>
    refine ⟨hh.inv, .inr ⟨hh.mem, hh.allocated⟩, fun b hb => ⟨?_, hne b hb⟩, fun _ => hsize⟩
    exact hb.imp (fun hb => hlarge ▸ hb) fun hb => hothers b hb.1 hb.2
  | large _ _ hfresh =>
    refine ⟨inv_large hi hfresh (largeLength_ge hfresh.2.1), .inl mem_cons_self, fun b hb => ⟨?_, hne b hb⟩, fun hs => ?_⟩
    · have hsame : (largeHeap env h a (largeLength size)).header b = h.header b := update_of_ne (hne b hb).symm ..
      exact hb.imp (mem_cons_of_mem _) fun hb => ⟨hb.1, by rw [hsame]; exact hb.2⟩
    · have hself : (largeHeap env h a (largeLength size)).size a = largeLength size - HEADER_SIZE := by
        simp [heap_t.size, largeHeap, heap_t.setHeader]
      rw [hself]
      exact largeLength_enough hs hfresh.2.1

theorem alloc_none (hi : Inv h none) (hr : heap_alloc env h size answer = some (h', none)) : h' = h := by
  cases (heap_alloc_rule carried_true hi trivial hr).1
  rfl

theorem malloc_none (hi : Inv h none) (hr : malloc env h size answer = some (h', none)) : h' = h := by
  unfold malloc at hr
  split at hr
  · cases hr
  · cases hr
    exact alloc_none hi ‹_›
  · cases hr

theorem malloc_some (hr : malloc env h size answer = some (h', some a)) :
    ∃ h₁, heap_alloc env h size answer = some (h₁, some a) ∧ h' = h₁.clearZeroed env a := by
  unfold malloc at hr
  split at hr
  · cases hr
  · cases hr
  · cases hr
    exact ⟨_, ‹_›, rfl⟩

theorem malloc_given (ht : Tidy h) (hr : malloc env h size answer = some (h', some a)) : Given h size h' a := by
  obtain ⟨h₁, halloc, rfl⟩ := malloc_some hr
  obtain ⟨-, hlive, hothers, hsize⟩ := alloc_given ht.inv halloc
  refine ⟨?_, live_clearZeroed.2 hlive, fun b hb => live_clearZeroed.2 (hothers b hb).1, fun hs => ?_⟩
  · cases (heap_alloc_rule carried_zeroed ht.inv ht.carried halloc).1 with
    | small h₀ _ _ _ hh => exact tidy_clearZeroed hh.inv hh.carried.clean hh.mem hh.allocated
    | large _ _ hfresh => exact tidy_large ht hfresh (largeLength_ge hfresh.2.1)
  · rw [(clearZeroed_fields env _ a a).2.2]
    exact hsize hs

variable {r : heap_t × Option Nat}

theorem tidy_malloc (ht : Tidy h) (hr : malloc env h size answer = some r) : Tidy r.1 := by
  obtain ⟨h', _ | a⟩ := r
  · rw [malloc_none ht.inv hr]
    exact ht
  · exact (malloc_given ht hr).tidy

/-- The bytes that `calloc` returns are zero. -/
def Blank (h : heap_t) (a n : Nat) : Prop := ∀ i < n, h.mem (a + HEADER_SIZE + i) = 0

theorem blank_clearZeroed (hb : Blank h a n) : Blank (h.clearZeroed env a) a n := by
  intro i hi
  have hout : ¬ (a ≤ a + HEADER_SIZE + i ∧ a + HEADER_SIZE + i < a + HEADER_SIZE) := by omega
  exact (mem_setHeader hout).trans (hb i hi)

theorem blank_large (hsize : size + HEADER_SIZE ≤ 2 ^ 64) (hpos : 0 < largeLength size) :
    Blank (largeHeap env h a (largeLength size)) a size := by
  intro i hi
  have hle := largeLength_enough hsize hpos
  have hge := largeLength_ge hpos
  have hout : ¬ (a ≤ a + HEADER_SIZE + i ∧ a + HEADER_SIZE + i < a + HEADER_SIZE) := by omega
  exact (mem_setHeader hout).trans (if_pos ⟨by omega, by omega⟩)

/-- A block on the list that `calloc` has filled, or found to have the flag. -/
theorem fill_spec (hi : Inv h none) (hc : Clean h (some a)) (ha : a ∈ h.heapList)
    (hall : (h.header a).allocated = true) (hn : n ≤ h.size a) :
    Inv (fill h a n) none ∧ Clean (fill h a n) (some a) ∧ Blank (fill h a n) a n := by
  unfold fill
  split_ifs with hz
  · refine ⟨hi, hc, fun i hin => hc.zero a ha hz _ ⟨Nat.le_add_right _ _, ?_⟩⟩
    rw [stop_segment]
    omega
  · refine ⟨inv_mem hi, ?_, fun i hin => if_pos ⟨Nat.le_add_right _ _, Nat.add_lt_add_left hin _⟩⟩
    exact hc.write hi (.inr ⟨ha, hall⟩) (Bool.not_eq_true _ ▸ hz) fun x hx => if_neg (outside_data hn hx)

theorem fill_eq (h : heap_t) (a n : Nat) : ∃ mem, fill h a n = { h with mem := mem } := by
  unfold fill
  split_ifs
  · exact ⟨h.mem, rfl⟩
  · exact ⟨_, rfl⟩

theorem calloc_none {nmemb : Nat} (hi : Inv h none) (hr : calloc env h nmemb size answer = some (h', none)) :
    h' = h := by
  unfold calloc at hr
  dsimp only at hr
  split_ifs at hr
  · cases hr
    rfl
  split at hr
  · cases hr
  · cases hr
    exact alloc_none hi ‹_›
  · cases hr

theorem calloc_some {nmemb total : Nat} (htotal : nmemb * size % 2 ^ 64 = total)
    (hr : calloc env h nmemb size answer = some (h', some a)) :
    ∃ h₁, heap_alloc env h total answer = some (h₁, some a) ∧ h' = (fill h₁ a total).clearZeroed env a := by
  unfold calloc at hr
  rw [htotal] at hr
  dsimp only at hr
  split_ifs at hr
  · cases hr
  split at hr
  · cases hr
  · cases hr
  · cases hr
    exact ⟨_, ‹_›, rfl⟩

theorem calloc_blank {nmemb total : Nat} (ht : Tidy h) (htotal : nmemb * size % 2 ^ 64 = total)
    (hr : calloc env h nmemb size answer = some (h', some a)) :
    Tidy h' ∧ (total + HEADER_SIZE ≤ 2 ^ 64 → Blank h' a total) := by
  obtain ⟨h₁, halloc, rfl⟩ := calloc_some htotal hr
  cases (heap_alloc_rule carried_zeroed ht.inv ht.carried halloc).1 with
  | small h₀ _ _ _ hh hsize hlarge hothers =>
    obtain ⟨hi, hc, hblank⟩ := fill_spec hh.inv hh.carried.clean hh.mem hh.allocated hsize
    obtain ⟨mem, hfill⟩ := fill_eq h₁ a total
    refine ⟨tidy_clearZeroed hi hc ?_ ?_, fun _ => blank_clearZeroed hblank⟩
    · rw [hfill]
      exact hh.mem
    · rw [hfill]
      exact hh.allocated
  | large _ _ hfresh =>
    have hfill : fill (largeHeap env h a (largeLength total)) a total = largeHeap env h a (largeLength total) := by
      simp [fill, largeHeap, heap_t.setHeader]
    rw [hfill]
    exact ⟨tidy_large ht hfresh (largeLength_ge hfresh.2.1), fun hs => blank_clearZeroed (blank_large hs hfresh.2.1)⟩

theorem tidy_calloc {nmemb : Nat} (ht : Tidy h) (hr : calloc env h nmemb size answer = some r) : Tidy r.1 := by
  obtain ⟨h', _ | a⟩ := r
  · rw [calloc_none ht.inv hr]
    exact ht
  · exact (calloc_blank ht rfl hr).1

theorem free_spec (ht : Tidy h) (ha : Live h a) (hr : free env h (some a) = some h') : Tidy h' := by
  rcases ha with hlarge | ⟨ha, hall⟩
  · rw [free_large ht.inv hlarge hr]
    exact ⟨inv_free_large ht.inv, ht.clean.frame rfl rfl (fun _ _ => rfl) (fun _ _ _ _ _ => rfl)
      fun b hb => ht.clean.large b (mem_of_mem_erase hb)⟩
  · have hi := ht.inv.hold hall
    obtain ⟨h₁, hfree, hinv, hz, -⟩ := heap_free_rule (carried_zeroed.kept none) hi ha (ht.inv.small a ha nofun)
      (carried_zeroed.clear none h a hi ha nofun ht.carried)
    rw [Option.some.inj (hr.symm.trans hfree)]
    exact ⟨hinv, hz.clean⟩

theorem unsplit_absorb {l₁ l₂ : List Nat} {hd : heap_header_t} (ht : Tidy h) (hm : Mergeable h (some a) a n n l₁ l₂)
    (hz : hd.zeroed = false) : Unsplit a (absorb env h a n n hd) := by
  refine ⟨ht.clean.weaken.absorb hm hz, fun h1 => ?_⟩
  rw [header_absorb_self, hz] at h1
  cases h1

/-- What `realloc` does with the heap acquired. -/
theorem reallocInPlace_spec (ht : Tidy h) (ha : Live h a) {r : heap_t × Bool}
    (hr : reallocInPlace env h a size = some r) :
    Tidy r.1 ∧ Live r.1 a ∧ (r.2 = false → (h.header a).mapped = true ∨ 0 < ROUND_UP size HEAP_ALIGNMENT) := by
  rcases ha with hlarge | ⟨ha, hall⟩
  · have hmap := ht.inv.mapped a hlarge
    rw [reallocInPlace, if_pos hmap] at hr
    cases hr
    exact ⟨ht, .inl hlarge, fun _ => .inl hmap⟩
  · have hz := ht.clean.busy a ha hall (by rintro ⟨⟩)
    have hunsplit : Unsplit a h := ⟨ht.clean.weaken, fun h1 => by rw [hz] at h1; cases h1⟩
    have hcarried : Carried env Zeroed Unsplit := carried_zeroed
    obtain ⟨r', hr', hh, -⟩ := realloc_rule hcarried hall
      (fun n l₁ l₂ hd hm _ hzhd => unsplit_absorb ht hm (hzhd.trans hz)) ht.inv hunsplit ha size
    obtain rfl := Option.some.inj (hr.symm.trans hr')
    refine ⟨⟨hh.inv, hh.carried.clean.release (hh.zeroed.trans hz)⟩, .inr ⟨hh.mem, hh.allocated⟩, fun hstay => ?_⟩
    right
    rw [reallocInPlace, if_neg (by rw [ht.inv.unmapped a ha]; rintro ⟨⟩)] at hr
    by_contra hzero
    have hpos := (ht.inv.sizes a ha).1
    rw [Nat.eq_zero_of_not_pos hzero, if_pos hpos] at hr
    obtain ⟨h₂, -, rfl⟩ := map_eq_some_iff.1 hr
    cases hstay

theorem directAlloc_spec (ht : Tidy h) (ha : Live h a) (hs : size + HEADER_SIZE ≤ 2 ^ 64)
    (hr : directAlloc env h a size answer = some r) : Tidy r.1 := by
  unfold directAlloc at hr
  split at hr
  · cases hr
  · rename_i h₁ hm
    cases hr
    rw [malloc_none ht.inv hm]
    exact ht
  · rename_i h₁ new hm
    have hg := malloc_given ht hm
    obtain ⟨h₂, hfree, rfl⟩ := map_eq_some_iff.1 hr
    have hcopy : Tidy { h₁ with mem := memcpy h₁.mem (new + HEADER_SIZE) (a + HEADER_SIZE) (min (h₁.size a) size) } :=
      hg.tidy.write hg.live fun x hx => if_neg (outside_data ((Nat.min_le_right _ _).trans (hg.enough hs)) hx)
    exact free_spec hcopy (hg.others a ha) hfree

/-! ## Runs of calls -/

/-- A call of the program, or a byte that it writes to one of its blocks. Answers
are those of `_heap_map_memory`. -/
inductive Call where
  | malloc (size : UInt64) (answer : Option Nat)
  | calloc (nmemb size : UInt64) (answer : Option Nat)
  | realloc (ptr : Option Nat) (size : UInt64) (answer : Option Nat)
  | free (ptr : Option Nat)
  | write (block addr : Nat) (byte : UInt8)
deriving DecidableEq

/-- The pointer is `NULL` or a live block. -/
def Valid (h : heap_t) (ptr : Option Nat) : Prop := ∀ block ∈ ptr, Live h block

instance (h : heap_t) : ∀ ptr, Decidable (Valid h ptr)
  | none => .isTrue nofun
  | some block => decidable_of_iff (Live h block) (by simp [Valid])

/-- The heap after a call, and the block that it returns. -/
def call (env : Env) (h : heap_t) : Call → Option (heap_t × Option Nat)
  | .malloc size answer => malloc env h size.toNat answer
  | .calloc nmemb size answer => calloc env h nmemb.toNat size.toNat answer
  | .realloc ptr size answer => if Valid h ptr then realloc env h ptr size.toNat answer else none
  | .free ptr => if Valid h ptr then (free env h ptr).map fun h => (h, none) else none
  | .write block addr byte =>
    if Live h block ∧ InData h block addr then some ({ h with mem := update h.mem addr byte }, none) else none

def callStep (env : Env) (h : heap_t) (c : Call) : Option heap_t := (call env h c).map Prod.fst

/-- The bytes that a successful `calloc` returns are zero. -/
def ReturnsZero (env : Env) (h : heap_t) : Call → Prop
  | .calloc nmemb size answer => ∀ h' block, call env h (.calloc nmemb size answer) = some (h', some block) →
    ∀ i < nmemb.toNat * size.toNat % 2 ^ 64, h'.mem (block + HEADER_SIZE + i) = 0
  | _ => True

/-- No block with the flag has a byte of data that is not zero. -/
def FlagsRight (h : heap_t) : Prop :=
  ∀ b, b ∈ h.heapList ∨ b ∈ h.large → (h.header b).zeroed = true → ∀ x, InData h b x → h.mem x = 0

/-- The size of a block does not wrap: in `calloc`, and in `realloc` of a block that
is mapped on its own. -/
def NoWrap (h : heap_t) : Call → Prop
  | .calloc nmemb size _ => nmemb.toNat * size.toNat % 2 ^ 64 + HEADER_SIZE ≤ 2 ^ 64
  | .realloc (some block) size _ => (h.header block).mapped = true → size.toNat + HEADER_SIZE ≤ 2 ^ 64
  | _ => True

instance (h : heap_t) : ∀ c, Decidable (NoWrap h c)
  | .malloc _ _ | .free _ | .write _ _ _ | .realloc none _ _ => inferInstanceAs (Decidable True)
  | .calloc _ _ _ => inferInstanceAs (Decidable (_ ≤ _))
  | .realloc (some _) _ _ => inferInstanceAs (Decidable (_ → _))

theorem Tidy.flagsRight (ht : Tidy h) : FlagsRight h := by
  intro b hb hz x hx
  rcases hb with hb | hb
  · exact ht.clean.zero b hb hz x hx
  · rw [ht.clean.large b hb] at hz
    cases hz

theorem tidy_init (mem : Nat → UInt8) : Tidy (init mem) :=
  ⟨inv_init mem, ⟨nofun, nofun, nofun, nofun, nofun⟩⟩

theorem noWrap_of_round_up (hlt : size < 2 ^ 64) (hpos : 0 < ROUND_UP size HEAP_ALIGNMENT) :
    size + HEADER_SIZE ≤ 2 ^ 64 := by
  simp only [ROUND_UP, HEAP_ALIGNMENT, HEADER_SIZE] at *
  omega

theorem tidy_realloc {sz : UInt64} (ht : Tidy h) (ha : Live h a)
    (hn : (h.header a).mapped = true → sz.toNat + HEADER_SIZE ≤ 2 ^ 64)
    (hr : realloc env h (some a) sz.toNat answer = some r) : Tidy r.1 := by
  simp only [realloc] at hr
  split_ifs at hr
  · obtain ⟨h₁, hfree, rfl⟩ := map_eq_some_iff.1 hr
    exact free_spec ht ha hfree
  · split at hr
    · cases hr
    · rename_i h₁ hin
      cases hr
      exact (reallocInPlace_spec ht ha hin).1
    · rename_i h₁ hin
      obtain ⟨ht₁, ha₁, hstay⟩ := reallocInPlace_spec ht ha hin
      refine directAlloc_spec ht₁ ha₁ ?_ hr
      exact (hstay rfl).elim hn fun hpos => noWrap_of_round_up sz.toNat_lt hpos

theorem tidy_callStep {c : Call} (ht : Tidy h) (hn : NoWrap h c) (hs : callStep env h c = some h') : Tidy h' := by
  obtain ⟨r, hr, rfl⟩ := map_eq_some_iff.1 hs
  cases c with
  | malloc size answer => exact tidy_malloc ht hr
  | calloc nmemb size answer => exact tidy_calloc ht hr
  | realloc ptr size answer =>
    simp only [call] at hr
    split_ifs at hr with hv
    cases ptr with
    | none => exact tidy_malloc ht hr
    | some block => exact tidy_realloc ht (hv block rfl) hn hr
  | free ptr =>
    simp only [call] at hr
    split_ifs at hr with hv
    obtain ⟨h₁, hfree, rfl⟩ := map_eq_some_iff.1 hr
    cases ptr with
    | none =>
      cases hfree
      exact ht
    | some block => exact free_spec ht (hv block rfl) hfree
  | write block addr byte =>
    simp only [call] at hr
    split_ifs at hr with hv
    cases hr
    refine ht.write hv.1 fun x hx => update_of_ne ?_ _ _
    rintro rfl
    exact hx hv.2

theorem returnsZero_of_tidy {c : Call} (ht : Tidy h) (hn : NoWrap h c) : ReturnsZero env h c := by
  cases c with
  | calloc nmemb size answer =>
    intro h' block hr i hi
    exact (calloc_blank ht rfl hr).2 hn i hi
  | malloc | realloc | free | write => trivial

/-- Along every run of calls in which no size wraps, over any memory and with any
bytes written inside live blocks, each `calloc` returns zeros, and no block with the
flag ever has a byte that is not zero. -/
theorem calloc_zero (env : Env) (mem : Nat → UInt8) (cs : List Call)
    (hcs : Along (callStep env) NoWrap (init mem) cs) :
    Along (callStep env) (ReturnsZero env) (init mem) cs ∧ Always (callStep env) FlagsRight (init mem) cs :=
  ⟨hcs.along (fun _ _ _ ht hn hs => tidy_callStep ht hn hs) (fun _ _ ht hn => returnsZero_of_tidy ht hn) (tidy_init mem),
    (hcs.always (fun _ _ _ ht hn hs => tidy_callStep ht hn hs) (tidy_init mem)).mono fun _ => Tidy.flagsRight⟩

/-- Ones are in every header. -/
def onesEnv : Env where
  head := { addr := 0, allocated := true, size := 0, apart := nofun }
  image := fun _ _ _ => 1

/-- A block is filled in part and freed, and `calloc` finds it. -/
def reused : List Call :=
  [.malloc 100 (some 8192), .write 8192 8300 7, .free (some 8192), .calloc 10 10 none]

theorem reused_zero : Along (callStep onesEnv) (ReturnsZero onesEnv) (init fun _ => 3) reused ∧
    Always (callStep onesEnv) FlagsRight (init fun _ => 3) reused :=
  calloc_zero onesEnv _ reused (by decide +kernel)

/-- The largest size: `_heap_alloc` maps the page below the first block. -/
def wrapping : List Call := [.malloc 1 (some 8192), .calloc 1 0xFFFFFFFFFFFFFFFF (some 4096)]

/-- `calloc` succeeds, and the byte after its page is not zero. -/
theorem wrapping_not_zero : ¬ Along (callStep onesEnv) (ReturnsZero onesEnv) (init fun _ => 3) wrapping := by
  intro hz
  have hrun : ∃ h₁ ∈ callStep onesEnv (init fun _ => 3) (.malloc 1 (some 8192)),
      ∃ r ∈ call onesEnv h₁ (.calloc 1 0xFFFFFFFFFFFFFFFF (some 4096)), r.2 = some 4096 ∧ r.1.mem 8192 = 1 := by
    decide +kernel
  obtain ⟨h₁, hmalloc, ⟨h₂, _⟩, hr, rfl, hbyte⟩ := hrun
  -- The last byte of the page is at offset 4031 of the data.
  have hzero := (hz.2 h₁ hmalloc).1 h₂ 4096 hr 4032 (by decide)
  exact absurd (hbyte.symm.trans hzero) (by decide)

/-! ## Sizes -/

/-- The block that is returned, if there is one, has `size` bytes. -/
def Enough (size : Nat) (r : Option (heap_t × Option Nat)) : Prop :=
  ∀ h a, r = some (h, some a) → size ≤ h.size a

theorem kept_large (b : Nat) (hd : heap_header_t) : Kept env fun h => b ∈ h.large ∧ h.header b = hd := by
  constructor
  · rintro h c ⟨hb, heq⟩
    rw [(same_add h c).large, (same_add h c).header]
    exact ⟨hb, heq⟩
  · rintro h held x y other l₁ l₂ _ hm - - - - ⟨hb, heq⟩
    have hbx : b ≠ x := by
      rintro rfl
      exact hm.inv.notMem_large (mem_of_eq_append hm.list) (contains_self h b) hb
    exact ⟨(same_remove h other).large ▸ hb, (header_absorb b hbx).trans heq⟩

/-- Freeing a block leaves the other ones of the callers as they are. -/
theorem size_free (hi : Inv h none) (ha : Live h a) (hb : Live h b) (hba : b ≠ a) (hr : free env h (some a) = some h') :
    h'.size b = h.size b := by
  rcases ha with hlarge | ⟨ha, hall⟩
  · rw [free_large hi hlarge hr]
    rfl
  · have hsame : (h.setHeader env a { h.header a with allocated := false }).header b = h.header b :=
      update_of_ne hba ..
    have hheader : h'.header b = h.header b := by
      rcases hb with hb | ⟨hb, hallb⟩
      · obtain ⟨h₁, hfree, -, hk, -⟩ := heap_free_rule (kept_large b (h.header b)) (hi.hold hall) ha
          (hi.small a ha nofun) ⟨hb, hsame⟩
        rw [Option.some.inj (hr.symm.trans hfree)]
        exact hk.2
      · obtain ⟨h₁, hfree, -, -, hkeeps⟩ := heap_free_rule kept_true (hi.hold hall) ha (hi.small a ha nofun) trivial
        rw [Option.some.inj (hr.symm.trans hfree)]
        exact ((hkeeps.blocks b hb (hsame ▸ hallb)).2).trans hsame
    rw [heap_t.size, hheader]
    rfl

/-- In every state of every run, `_heap_alloc` hands out a block that nobody has and leaves
the others to their owners, and freeing a block leaves the sizes of the others as they are. -/
theorem blocks_kept (env : Env) (mem : Nat → UInt8) (as : List Action) :
    Always (step env) (fun h =>
      (∀ size answer h' a, heap_alloc env h size answer = some (h', some a) →
        Live h' a ∧ ∀ b, Live h b → Live h' b ∧ a ≠ b) ∧
      ∀ a b h', Live h a → Live h b → b ≠ a → free env h (some a) = some h' → h'.size b = h.size b)
      (init mem) as := by
  refine (always_of_step (fun _ _ _ hi hs => inv_step hi hs) (inv_init mem) as).mono fun h hi => ⟨?_, ?_⟩
  · intro size answer h' a hr
    obtain ⟨-, hlive, hothers, -⟩ := alloc_given hi hr
    exact ⟨hlive, hothers⟩
  · intro a b h' ha hb hba
    exact size_free hi ha hb hba

theorem directAlloc_enough (hi : Inv h none) (ha : Live h a) (hs : size + HEADER_SIZE ≤ 2 ^ 64) :
    Enough size (directAlloc env h a size answer) := by
  intro h' c hr
  unfold directAlloc at hr
  split at hr
  · cases hr
  · cases hr
  · rename_i h₁ new hm
    obtain ⟨h₂, hfree, heq⟩ := map_eq_some_iff.1 hr
    cases heq
    obtain ⟨h₀, halloc, rfl⟩ := malloc_some hm
    obtain ⟨hi₀, hlive, hothers, hsize⟩ := alloc_given hi halloc
    have hinv : Inv (h₀.clearZeroed env c) none := inv_clearZeroed hi₀ hlive
    have ha' : Live (h₀.clearZeroed env c) a := live_clearZeroed.2 (hothers a ha).1
    have hc' : Live (h₀.clearZeroed env c) c := live_clearZeroed.2 hlive
    have hsame := (clearZeroed_fields env h₀ c c).2.2
    generalize h₀.clearZeroed env c = h₁ at hfree hinv ha' hc' hsame
    generalize memcpy h₁.mem _ _ _ = mem at hfree
    have hinv' : Inv { h₁ with mem } none := inv_mem hinv
    rw [size_free hinv' ha' hc' (hothers a ha).2 hfree]
    exact hsame ▸ hsize hs

theorem realloc_enough (hi : Inv h none) (ha : Live h a) (hs : size + HEADER_SIZE ≤ 2 ^ 64) :
    Enough size (realloc env h (some a) size answer) := by
  intro h' c hr
  unfold realloc at hr
  dsimp only at hr
  split_ifs at hr with hzero
  · obtain ⟨_, -, heq⟩ := map_eq_some_iff.1 hr
    cases heq
  rcases ha with hlarge | ⟨ha, hall⟩
  · rw [reallocInPlace, if_pos (hi.mapped a hlarge)] at hr
    exact directAlloc_enough hi (.inl hlarge) hs h' c hr
  · have hC : Carried env (fun _ _ => True) fun _ _ => True := carried_true
    obtain ⟨⟨h₁, stays⟩, hin, hh, hsize⟩ := realloc_rule hC hall (fun _ _ _ _ _ _ _ => trivial) hi trivial ha size
    rw [hin] at hr
    cases stays with
    | true =>
      cases hr
      refine (round_up_isLeast (by decide) ?_).1.2.trans (hsize rfl)
      simp only [HEADER_SIZE, HEAP_ALIGNMENT] at hs ⊢
      omega
    | false => exact directAlloc_enough hh.inv (.inr ⟨hh.mem, hh.allocated⟩) hs h' c hr

/-- Where the size and the header wrap, a page is mapped. -/
theorem alloc_wraps (hlt : size < 2 ^ 64) (hwrap : 2 ^ 64 < size + HEADER_SIZE) (env : Env) (mem : Nat → UInt8) :
    ¬Enough size (heap_alloc env (init mem) size (some 4096)) := by
  have hlen : largeLength size = 4096 := by
    simp only [largeLength, BYTES_TO_PAGES, HEADER_SIZE, PAGE_SIZE] at *
    omega
  intro henough
  have hfresh : Fresh (init mem) (4096, 4096) := ⟨rfl, by decide, by decide, by rintro _ ⟨⟩, by rintro _ ⟨⟩⟩
  have hlarge : size > HEAP_LARGE_ALLOC_THRESHOLD := by
    simp only [HEAP_LARGE_ALLOC_THRESHOLD, HEADER_SIZE, PAGE_SIZE] at *
    omega
  have halloc : heap_alloc env (init mem) size (some 4096) = some (largeHeap env (init mem) 4096 4096, some 4096) := by
    simp only [heap_alloc, if_neg (show ¬size = 0 by omega), if_pos hlarge, hlen, heap_map_memory, if_pos hfresh]
    rfl
  have hsize := henough _ _ halloc
  have hself : (largeHeap env (init mem) 4096 4096).size 4096 = 4032 := by
    simp [heap_t.size, largeHeap, heap_t.setHeader, HEADER_SIZE]
  rw [hself] at hsize
  simp only [HEADER_SIZE] at hwrap
  omega

/-- The blocks that are returned are large enough in every heap exactly if the header can be added to
the size. -/
theorem blocks_enough_iff (env : Env) (hlt : size < 2 ^ 64) :
    (∀ h, Inv h none → ∀ answer, Enough size (heap_alloc env h size answer) ∧ Enough size (malloc env h size answer) ∧
      (∀ nmemb n, nmemb * n = size → Enough size (calloc env h nmemb n answer)) ∧
      ∀ a, Live h a → Enough size (realloc env h (some a) size answer)) ↔ size + HEADER_SIZE ≤ 2 ^ 64 := by
  constructor
  · intro h
    by_contra hwrap
    exact alloc_wraps hlt (Nat.lt_of_not_le hwrap) env (fun _ => 0) (h _ (inv_init _) _).1
  · intro hs h hi answer
    refine ⟨fun h' a hr => (alloc_given hi hr).2.2.2 hs, fun h' a hr => ?_, ?_, fun a ha => realloc_enough hi ha hs⟩
    · obtain ⟨h₁, halloc, rfl⟩ := malloc_some hr
      rw [(clearZeroed_fields env h₁ a a).2.2]
      exact (alloc_given hi halloc).2.2.2 hs
    · rintro nmemb n rfl h' a hr
      obtain ⟨h₁, halloc, rfl⟩ := calloc_some (Nat.mod_eq_of_lt hlt) hr
      obtain ⟨mem, hfill⟩ := fill_eq h₁ a (nmemb * n)
      rw [(clearZeroed_fields env _ a a).2.2, hfill]
      exact (alloc_given hi halloc).2.2.2 hs

theorem hundred_enough : Enough 100 (heap_alloc onesEnv (init fun _ => 3) 100 (some 4096)) :=
  ((blocks_enough_iff onesEnv (by decide)).2 (by decide) _ (inv_init _) _).1

/-- `_heap_alloc` of `2 ^ 64 - 1` bytes returns a block of 4032. -/
theorem largest_not_enough :
    ¬Enough 0xFFFFFFFFFFFFFFFF (heap_alloc onesEnv (init fun _ => 3) 0xFFFFFFFFFFFFFFFF (some 4096)) :=
  alloc_wraps (by decide) (by decide) onesEnv _

end Patchwork.Heap
