import Patchwork.Lib.Agents
import Patchwork.Lib.Tickets
import Patchwork.Sync.Mutex
/-!
# The read-write mutex

`rwmutex.c` over any finite set of threads. A step is one section under `mtx->lock`:
from the `lock_acquire` to the return, or to the `lock_release` with which a thread
blocks. `wait_unblock` with an amount of one wakes some thread that is blocked on the
queue, if there is one. A blocked thread may also be woken for another reason, and
the result of `wait_block_commit` and those of `wait_block_prepare` are arbitrary.

The counters have 16 bits. They are right as long as fewer than `2 ^ 16` threads read
and fewer than that wait to write, and then the mutex does what it should.
-/

namespace Patchwork.RwMutex

open Option List Function Lib Patchwork.Wait Patchwork.Mutex

variable {T : Type} [DecidableEq T]

structure rwmutex_t where
  activeReaders : BitVec 16
  waitingWriters : BitVec 16
  hasWriter : Bool
deriving Repr, DecidableEq

/-- Where a thread is. A thread that was woken has not got the lock back yet. -/
inductive Place where
  | outside
  | readBlocked
  | readWoken
  | reading
  | writeBlocked
  | writeWoken
  | writing
deriving Repr, DecidableEq

namespace Place

def reads : Place → Bool
  | .reading => true
  | _ => false

/-- In `rwmutex_write_acquire`, blocked or woken. -/
def waits : Place → Bool
  | .writeBlocked | .writeWoken => true
  | _ => false

/-- Wants the mutex and has not got it. -/
def wants : Place → Bool
  | .readBlocked | .readWoken | .writeBlocked | .writeWoken => true
  | _ => false

def blocked : Place → Bool
  | .readBlocked | .writeBlocked => true
  | _ => false

end Place

structure System (T : Type) where
  mtx : rwmutex_t
  place : T → Place

def rwmutex_init : rwmutex_t := { activeReaders := 0, waitingWriters := 0, hasWriter := false }

def init : System T := { mtx := rwmutex_init, place := fun _ => .outside }

/-! ## The sections -/

def readCondition (mtx : rwmutex_t) : Bool := !(mtx.hasWriter || decide (mtx.waitingWriters > 0))
def writeCondition (mtx : rwmutex_t) : Bool := !(decide (mtx.activeReaders > 0) || mtx.hasWriter)

def takeRead (s : System T) (t : T) : System T :=
  { mtx := { s.mtx with activeReaders := s.mtx.activeReaders + 1 }
    place := update s.place t .reading }

/-- The loop of `rwmutex_read_acquire`, entered with the result of a wait or with `0`. -/
def readLoop (s : System T) (t : T) (result : result_t) (prepares : List result_t) : Option (System T) :=
  (waitNever (readCondition s.mtx) result prepares).map fun
    | .done _ => takeRead s t
    | .block => { s with place := update s.place t .readBlocked }

def rwmutex_read_acquire (s : System T) (t : T) (prepares : List result_t) : Option (System T) :=
  readLoop s t .zero prepares

def rwmutex_read_try_acquire (s : System T) (t : T) : System T :=
  if s.mtx.waitingWriters > 0 ∨ s.mtx.hasWriter then s else takeRead s t

/-- The loop of `rwmutex_write_acquire` and what follows it. -/
def writeLoop (s : System T) (t : T) (result : result_t) (prepares : List result_t) : Option (System T) :=
  (waitNever (writeCondition s.mtx) result prepares).map fun
    | .done _ =>
      { mtx := { s.mtx with waitingWriters := s.mtx.waitingWriters - 1, hasWriter := true }
        place := update s.place t .writing }
    | .block => { s with place := update s.place t .writeBlocked }

def rwmutex_write_acquire (s : System T) (t : T) (prepares : List result_t) : Option (System T) :=
  writeLoop { s with mtx := { s.mtx with waitingWriters := s.mtx.waitingWriters + 1 } } t .zero prepares

def rwmutex_write_try_acquire (s : System T) (t : T) : System T :=
  if s.mtx.activeReaders > 0 ∨ s.mtx.hasWriter then s
  else { mtx := { s.mtx with hasWriter := true }, place := update s.place t .writing }

/-- A thread is woken from either queue. -/
def Place.wake : Place → Place
  | .readBlocked => .readWoken
  | .writeBlocked => .writeWoken
  | p => p

/-- `wait_unblock(&mtx->readerQueue, WAIT_ALL, EOK)`. -/
def unblockReaders (s : System T) : System T :=
  { s with place := fun u => if s.place u = .readBlocked then .readWoken else s.place u }

/-- The part of `rwmutex_read_release` before the wake-up. -/
def dropRead (s : System T) (t : T) : System T :=
  { mtx := { s.mtx with activeReaders := s.mtx.activeReaders - 1 }
    place := update s.place t .outside }

def dropWrite (s : System T) (t : T) : System T :=
  { mtx := { s.mtx with hasWriter := false }, place := update s.place t .outside }

variable [Fintype T]

/-- `wait_unblock(&mtx->writerQueue, 1, EOK)`, which wakes `woken`. -/
def unblockWriter (s : System T) : (woken : Option T) → Option (System T)
  | some u =>
    if s.place u = .writeBlocked then some { s with place := update s.place u .writeWoken } else none
  | none => if ∀ u, s.place u ≠ .writeBlocked then some s else none

def rwmutex_read_release (s : System T) (t : T) (woken : Option T) : Option (System T) :=
  if s.mtx.activeReaders > 0 then
    let s := dropRead s t
    if s.mtx.activeReaders = 0 ∧ s.mtx.waitingWriters > 0 then unblockWriter s woken else some s
  else none

def rwmutex_write_release (s : System T) (t : T) (woken : Option T) : Option (System T) :=
  let s := dropWrite s t
  if s.mtx.waitingWriters > 0 then unblockWriter s woken else some (unblockReaders s)

inductive Action (T : Type) where
  | readAcquire (t : T) (prepares : List result_t)
  | readTryAcquire (t : T)
  | readRelease (t : T) (woken : Option T)
  | writeAcquire (t : T) (prepares : List result_t)
  | writeTryAcquire (t : T)
  | writeRelease (t : T) (woken : Option T)
  /-- A blocked thread is woken by something else. -/
  | wake (t : T)
  /-- A woken thread returns from `wait_block_commit` and gets the lock. -/
  | resume (t : T) (commit : result_t) (prepares : List result_t)

def step (s : System T) : Action T → Option (System T)
  | .readAcquire t prepares => if s.place t = .outside then rwmutex_read_acquire s t prepares else none
  | .readTryAcquire t => if s.place t = .outside then some (rwmutex_read_try_acquire s t) else none
  | .readRelease t woken => if s.place t = .reading then rwmutex_read_release s t woken else none
  | .writeAcquire t prepares => if s.place t = .outside then rwmutex_write_acquire s t prepares else none
  | .writeTryAcquire t => if s.place t = .outside then some (rwmutex_write_try_acquire s t) else none
  | .writeRelease t woken => if s.place t = .writing then rwmutex_write_release s t woken else none
  | .wake t =>
    if (s.place t).blocked then some { s with place := update s.place t (s.place t).wake } else none
  | .resume t commit prepares =>
    if s.place t = .readWoken then readLoop s t commit prepares
    else if s.place t = .writeWoken then writeLoop s t commit prepares
    else none

/-! ## What the mutex is for -/

open Place

/-- Exclusion, the meaning of the fields, and that somebody can go on: where the
mutex is free, a thread that wants it is not blocked, if there is one. -/
structure Right (s : System T) : Prop where
  exclusive : ∀ t u, s.place t = .writing → u ≠ t → s.place u ≠ .writing ∧ s.place u ≠ .reading
  activeReaders : s.mtx.activeReaders.toNat = tally reads s.place
  waitingWriters : s.mtx.waitingWriters.toNat = tally waits s.place
  hasWriter : s.mtx.hasWriter = true ↔ ∃ t, s.place t = .writing
  live : (∀ t, s.place t ≠ .reading ∧ s.place t ≠ .writing) → (∃ t, (s.place t).wants = true) →
    ∃ t, (s.place t).wants = true ∧ (s.place t).blocked = false

/-- Fewer than `2 ^ 16` threads read, and fewer than that wait to write. -/
def Few (s : System T) : Prop := tally reads s.place < 2 ^ 16 ∧ tally waits s.place < 2 ^ 16

/-! ## The invariant -/

/-- What holds also before a wake-up. -/
structure Base (s : System T) : Prop where
  active : s.mtx.activeReaders = BitVec.ofNat 16 (tally reads s.place)
  waiting : s.mtx.waitingWriters = BitVec.ofNat 16 (tally waits s.place)
  writer : s.mtx.hasWriter = true ↔ ∃ t, s.place t = .writing
  one : ∀ t u, s.place t = .writing → s.place u = .writing → t = u
  alone : s.mtx.hasWriter = true → tally reads s.place = 0
  /-- Readers are blocked by writers only. -/
  readers : s.mtx.hasWriter = false → tally waits s.place = 0 → ∀ t, s.place t ≠ .readBlocked

structure Inv (s : System T) : Prop extends Base s where
  /-- A writer is on its way to a free mutex. -/
  writers : s.mtx.hasWriter = false → tally reads s.place = 0 → ∀ t, s.place t = .writeBlocked →
    ∃ u, s.place u = .writeWoken

variable {s s' : System T} {t u : T} {o p : Place} {result : result_t} {prepares : List result_t} {woken : Option T}

omit [DecidableEq T] in
theorem inv_init : Inv (init : System T) := by
  have hzero : ∀ p : Place → Bool, p .outside = false → tally p (init : System T).place = 0 := by
    intro p hp
    simp [tally, init, hp]
  refine ⟨⟨?_, ?_, ⟨by rintro ⟨⟩, by rintro ⟨_, ⟨⟩⟩⟩, by rintro _ _ ⟨⟩, by rintro ⟨⟩, by rintro _ _ _ ⟨⟩⟩,
    by rintro _ _ _ ⟨⟩⟩
  · rw [hzero _ rfl]
    rfl
  · rw [hzero _ rfl]
    rfl

section Fields

omit [DecidableEq T]

section
variable (hi : Base s) (hf : Few s)
include hi hf

theorem Base.active_toNat : s.mtx.activeReaders.toNat = tally reads s.place := by
  rw [hi.active, BitVec.toNat_ofNat, Nat.mod_eq_of_lt hf.1]

theorem Base.waiting_toNat : s.mtx.waitingWriters.toNat = tally waits s.place := by
  rw [hi.waiting, BitVec.toNat_ofNat, Nat.mod_eq_of_lt hf.2]

theorem Base.active_zero : s.mtx.activeReaders = 0#16 ↔ tally reads s.place = 0 := by
  rw [← hi.active_toNat hf, ← BitVec.toNat_inj]
  rfl

theorem Base.waiting_zero : s.mtx.waitingWriters = 0#16 ↔ tally waits s.place = 0 := by
  rw [← hi.waiting_toNat hf, ← BitVec.toNat_inj]
  rfl

theorem Base.readCondition_iff : readCondition s.mtx = true ↔ s.mtx.hasWriter = false ∧ tally waits s.place = 0 := by
  simp [readCondition, hi.waiting_zero hf]

theorem Base.writeCondition_iff : writeCondition s.mtx = true ↔ tally reads s.place = 0 ∧ s.mtx.hasWriter = false := by
  simp [writeCondition, hi.active_zero hf]

theorem Base.taken_of_block (h : waitNever (writeCondition s.mtx) result prepares = some .block) :
    s.mtx.hasWriter = true ∨ 0 < tally reads s.place := by
  have hcond : ¬ (tally reads s.place = 0 ∧ s.mtx.hasWriter = false) := by
    rw [← hi.writeCondition_iff hf, waitNever_block h]
    nofun
  cases hw : s.mtx.hasWriter with
  | true => exact .inl rfl
  | false => exact .inr (Nat.pos_of_ne_zero fun h0 => hcond ⟨h0, hw⟩)

end

theorem Base.no_writer (hi : Base s) (hw : s.mtx.hasWriter = false) (t : T) : s.place t ≠ .writing := by
  intro ht
  rw [hi.writer.2 ⟨t, ht⟩] at hw
  cases hw

theorem Inv.right (hi : Inv s) (hf : Few s) : Right s where
  exclusive t u ht hut := by
    refine ⟨fun hu => hut (hi.one u t hu ht), fun hu => ?_⟩
    have hzero := tally_eq_zero (hi.alone (hi.writer.2 ⟨t, ht⟩)) u
    rw [hu] at hzero
    cases hzero
  activeReaders := hi.active_toNat hf
  waitingWriters := hi.waiting_toNat hf
  hasWriter := hi.writer
  live hfree := by
    rintro ⟨t, ht⟩
    have hw : s.mtx.hasWriter = false := by
      by_contra hw
      obtain ⟨u, hu⟩ := hi.writer.1 (Bool.not_eq_false _ ▸ hw)
      exact (hfree u).2 hu
    have hr : tally reads s.place = 0 := by
      by_contra hr
      obtain ⟨u, hu⟩ := Finset.card_pos.1 (Nat.pos_of_ne_zero hr)
      have hu' : (s.place u).reads = true := by simpa using hu
      cases hp : s.place u <;> rw [hp] at hu' <;> first | exact (hfree u).1 hp | cases hu'
    by_cases hn : tally waits s.place = 0
    · -- Only readers want it, and they are not blocked.
      refine ⟨t, ht, ?_⟩
      have hb := hi.readers hw hn t
      have hz := tally_eq_zero hn t
      cases hp : s.place t <;> simp_all [blocked, waits]
    · -- A writer wants it, and if it is blocked then another one is not.
      obtain ⟨u, hu⟩ := Finset.card_pos.1 (Nat.pos_of_ne_zero hn)
      have hu' : (s.place u).waits = true := by simpa using hu
      cases hp : s.place u with
      | writeWoken => exact ⟨u, by rw [hp]; rfl, by rw [hp]; rfl⟩
      | writeBlocked =>
        obtain ⟨v, hv⟩ := hi.writers hw hr u hp
        exact ⟨v, by rw [hv]; rfl, by rw [hv]; rfl⟩
      | outside | readBlocked | readWoken | reading | writing =>
        rw [hp] at hu'
        cases hu'

end Fields

/-! ## The steps -/

omit [DecidableEq T] in
theorem Base.free (hactive : s.mtx.activeReaders = BitVec.ofNat 16 (tally reads s.place))
    (hwaiting : s.mtx.waitingWriters = BitVec.ofNat 16 (tally waits s.place)) (hw : s.mtx.hasWriter = false)
    (hnone : ∀ u, s.place u ≠ .writing) (hreaders : tally waits s.place = 0 → ∀ u, s.place u ≠ .readBlocked) :
    Base s where
  active := hactive
  waiting := hwaiting
  writer := by simp [hw, hnone]
  one u _ hu := absurd hu (hnone u)
  alone h := by simp [hw] at h
  readers _ := hreaders

/-- A thread that is neither a reader nor a writer takes the mutex to read. -/
theorem Inv.takeRead (hi : Inv s) (ht : s.place t = o) (hor : o.reads = false) (how : o.waits = false)
    (hw : s.mtx.hasWriter = false) (hn : tally waits s.place = 0) : Inv (takeRead s t) := by
  have hreads := tally_enter reads .reading ht hor rfl
  have hwaits := tally_stay waits .reading ht how.symm
  refine ⟨.free ?_ ?_ hw (fun u hu => hi.no_writer hw u (of_update hu nofun).2)
    fun _ u hu => hi.readers hw hn u (of_update hu nofun).2, fun _ hr => ?_⟩
  · simp only [RwMutex.takeRead, hreads, hi.active]
    exact (BitVec.ofNat_add _ _).symm
  · simp only [RwMutex.takeRead, hwaits]
    exact hi.waiting
  · rw [show tally reads (RwMutex.takeRead s t).place = _ from hreads] at hr
    cases hr

/-- A thread that does not write goes where nobody writes. -/
theorem Base.moves (hi : Base s) {w : BitVec 16} (ht : s.place t = o) (hreads : p.reads = o.reads)
    (hwaits : w = BitVec.ofNat 16 (tally waits (update s.place t p))) (hnw : o ≠ .writing)
    (hp : p ≠ .writing) (hblocked : s.mtx.hasWriter = false → tally waits (update s.place t p) = 0 →
      tally waits s.place = 0 ∧ p ≠ .readBlocked) :
    Base { mtx := { s.mtx with waitingWriters := w }, place := update s.place t p } := by
  have hcr := tally_stay _ _ ht hreads
  have hwriting : ∀ u, update s.place t p u = .writing ↔ s.place u = .writing := by
    intro u
    by_cases hut : u = t
    · simp [hut, hp, ht, hnw]
    · simp [hut]
  constructor
  · rw [hcr]
    exact hi.active
  · exact hwaits
  · simp only [hwriting]
    exact hi.writer
  · simp only [hwriting]
    exact hi.one
  · rw [hcr]
    exact hi.alone
  · intro hw hn u hu
    obtain ⟨hn', hne⟩ := hblocked hw hn
    exact hi.readers hw hn' u (of_update hu hne).2

theorem Base.place (hi : Base s) (ht : s.place t = o) (hreads : p.reads = o.reads) (hwaits : p.waits = o.waits)
    (hnw : o ≠ .writing) (hp : p ≠ .writing)
    (hblocked : p = .readBlocked → s.mtx.hasWriter = true ∨ 0 < tally waits s.place) :
    Base { s with place := update s.place t p } := by
  have hcw := tally_stay _ _ ht hwaits
  refine hi.moves ht hreads (hcw ▸ hi.waiting) hnw hp fun hw hn => ⟨hcw ▸ hn, fun he => ?_⟩
  have := hblocked he
  simp [hw, ← hcw, hn] at this

theorem Inv.block (hi : Inv s) (ht : s.place t = o) (hreads : p.reads = o.reads) (hwaits : p.waits = o.waits)
    (hnw : o ≠ .writing) (hp : p ≠ .writing)
    (hwriter : o = .writeWoken ∨ p = .writeBlocked → s.mtx.hasWriter = true ∨ 0 < tally reads s.place)
    (hreader : p = .readBlocked → s.mtx.hasWriter = true ∨ 0 < tally waits s.place) :
    Inv { s with place := update s.place t p } := by
  refine ⟨hi.toBase.place ht hreads hwaits hnw hp hreader, fun hw hr u hu => ?_⟩
  rw [show tally reads (update s.place t p) = _ from tally_stay _ _ ht hreads] at hr
  have hfree : ¬ (s.mtx.hasWriter = true ∨ 0 < tally reads s.place) := by
    simp [show s.mtx.hasWriter = false from hw, hr]
  have hut : u ≠ t := by
    rintro rfl
    simp only [update_self] at hu
    exact hfree (hwriter (.inr hu))
  simp only [update_of_ne hut] at hu
  obtain ⟨v, hv⟩ := hi.writers hw hr u hu
  have hvt : v ≠ t := by
    rintro rfl
    exact hfree (hwriter (.inl (ht.symm.trans hv)))
  exact ⟨v, by simpa [hvt] using hv⟩

theorem Inv.takeWrite (hi : Inv s) {w : BitVec 16} (ht : s.place t = o) (ho : o.reads = false)
    (hw : s.mtx.hasWriter = false) (hr : tally reads s.place = 0)
    (hwaiting : w = BitVec.ofNat 16 (tally waits (update s.place t .writing))) :
    Inv
      { mtx := { s.mtx with waitingWriters := w, hasWriter := true }
        place := update s.place t .writing } := by
  have hcr := tally_stay reads .writing ht ho.symm
  have hwriting : ∀ u, update s.place t .writing u = .writing → u = t := by
    intro u hu
    rcases update_cases hu with ⟨h, _⟩ | ⟨_, h⟩
    · exact h
    · exact absurd h (hi.no_writer hw u)
  refine ⟨⟨?_, hwaiting, ⟨fun _ => ⟨t, update_self ..⟩, fun _ => rfl⟩, ?_, fun _ => ?_, nofun⟩, nofun⟩
  · rw [hcr]
    exact hi.active
  · intro u v hu hv
    rw [hwriting u hu, hwriting v hv]
  · rw [hcr]
    exact hr

theorem inv_readLoop (hi : Inv s) (hf : Few s)
    (ht : s.place t = .outside ∨ s.place t = .readWoken) (hs : readLoop s t result prepares = some s') : Inv s' := by
  have hplace : (s.place t).reads = false ∧ (s.place t).waits = false ∧ s.place t ≠ .writing ∧
      s.place t ≠ .writeWoken := by
    rcases ht with ht | ht <;> simp [ht, reads, waits]
  obtain ⟨hr, hn, hnw, hnwoken⟩ := hplace
  obtain ⟨turn, hturn, rfl⟩ := map_eq_some_iff.1 hs
  rcases waitNever_cases hturn with rfl | ⟨rfl, hcond⟩
  · have hcond : ¬ (s.mtx.hasWriter = false ∧ tally waits s.place = 0) := by
      rw [← hi.readCondition_iff hf, waitNever_block hturn]
      nofun
    refine hi.block (p := .readBlocked) rfl hr.symm hn.symm hnw nofun (fun h => h.elim (absurd · hnwoken) nofun) fun _ => ?_
    cases hw : s.mtx.hasWriter with
    | true => exact .inl rfl
    | false => exact .inr (Nat.pos_of_ne_zero fun h0 => hcond ⟨hw, h0⟩)
  · obtain ⟨hw, hzero⟩ := (hi.readCondition_iff hf).1 hcond
    exact hi.takeRead rfl hr hn hw hzero

theorem inv_writeAcquire (hi : Inv s) (hf : Few s) (ht : s.place t = .outside)
    (hs : rwmutex_write_acquire s t prepares = some s') : Inv s' := by
  obtain ⟨turn, hturn, rfl⟩ := map_eq_some_iff.1 hs
  have hturn : waitNever (writeCondition s.mtx) .zero prepares = some turn := hturn
  rcases waitNever_cases hturn with rfl | ⟨rfl, hcond⟩
  · have htaken := hi.taken_of_block hf hturn
    have hcr := tally_stay reads .writeBlocked ht rfl
    have hcw := tally_enter waits .writeBlocked ht rfl rfl
    refine ⟨hi.moves ht rfl ?_ nofun nofun fun _ hn => ?_, fun hw hr => ?_⟩
    · rw [hcw, BitVec.ofNat_add, ← hi.waiting]
      rfl
    · rw [hcw] at hn
      cases hn
    · rw [show tally reads (update s.place t .writeBlocked) = _ from hcr] at hr
      rw [show s.mtx.hasWriter = false from hw, hr] at htaken
      exact htaken.elim nofun (absurd · (Nat.lt_irrefl 0))
  · obtain ⟨hr, hw⟩ := (hi.writeCondition_iff hf).1 hcond
    have hcw := tally_stay waits .writing ht rfl
    refine hi.takeWrite ht rfl hw hr ?_
    rw [hcw, ← hi.waiting]
    exact BitVec.add_sub_cancel _ _

theorem inv_writeLoop (hi : Inv s) (hf : Few s)
    (ht : s.place t = .writeWoken) (hs : writeLoop s t result prepares = some s') : Inv s' := by
  obtain ⟨turn, hturn, rfl⟩ := map_eq_some_iff.1 hs
  rcases waitNever_cases hturn with rfl | ⟨rfl, hcond⟩
  · have htaken := hi.taken_of_block hf hturn
    exact hi.block (p := .writeBlocked) ht rfl rfl nofun nofun (fun _ => htaken) nofun
  · obtain ⟨hr, hw⟩ := (hi.writeCondition_iff hf).1 hcond
    have hcw := tally_leave waits .writing ht rfl rfl
    refine hi.takeWrite ht rfl hw hr ?_
    rw [hi.waiting, ← hcw, BitVec.ofNat_add]
    exact BitVec.add_sub_cancel _ _

/-- After `wait_unblock` a writer is on its way, if one was blocked. -/
theorem inv_unblockWriter (hb : Base s) (hs : unblockWriter s woken = some s') : Inv s' := by
  cases woken with
  | some u =>
    simp only [unblockWriter] at hs
    split_ifs at hs with hu
    cases hs
    exact ⟨hb.place hu rfl rfl nofun nofun nofun, fun _ _ _ _ => ⟨u, update_self ..⟩⟩
  | none =>
    simp only [unblockWriter] at hs
    split_ifs at hs with hnone
    cases hs
    exact ⟨hb, fun _ _ u hu => absurd hu (hnone u)⟩

theorem Base.dropRead (hi : Base s) (ht : s.place t = .reading) : Base (dropRead s t) := by
  have hcr := tally_leave reads .outside ht rfl rfl
  have hcw := tally_stay waits .outside ht rfl
  -- There is no writer while there is a reader.
  have hw : s.mtx.hasWriter = false := by
    by_contra hw
    have := hi.alone (Bool.not_eq_false _ ▸ hw)
    omega
  refine .free ?_ ?_ hw (fun u hu => hi.no_writer hw u (of_update hu nofun).2) fun hn u hu => ?_
  · simp only [RwMutex.dropRead]
    rw [hi.active, ← hcr, BitVec.ofNat_add]
    exact BitVec.add_sub_cancel _ _
  · simp only [RwMutex.dropRead, hcw]
    exact hi.waiting
  · rw [show tally waits (RwMutex.dropRead s t).place = _ from hcw] at hn
    exact hi.readers hw hn u (of_update hu nofun).2

theorem few_dropRead (hf : Few s) (ht : s.place t = .reading) : Few (dropRead s t) := by
  have hcr := tally_leave reads .outside ht rfl rfl
  have hcw := tally_stay waits .outside ht rfl
  refine ⟨?_, ?_⟩
  · have hlt := hf.1
    show tally reads (update s.place t .outside) < 2 ^ 16
    omega
  · show tally waits (update s.place t .outside) < 2 ^ 16
    rw [hcw]
    exact hf.2

theorem inv_readRelease (hi : Inv s) (hf : Few s) (ht : s.place t = .reading)
    (hs : rwmutex_read_release s t woken = some s') : Inv s' := by
  have hb := hi.toBase.dropRead ht
  have hf' := few_dropRead hf ht
  simp only [rwmutex_read_release] at hs
  split_ifs at hs with hpos hwake
  · exact inv_unblockWriter hb hs
  · cases hs
    refine ⟨hb, fun _ hr u hu => absurd ⟨(hb.active_zero hf').2 hr, ?_⟩ hwake⟩
    -- A writer that is blocked is counted.
    have hne : (dropRead s t).mtx.waitingWriters ≠ 0#16 := by
      rw [Ne, hb.waiting_zero hf']
      have := tally_pos (p := waits) (f := (dropRead s t).place) (c := u) (by rw [hu]; rfl)
      omega
    exact (BitVec.pos_iff_ne_zero _).2 hne

omit [DecidableEq T] [Fintype T] in
/-- Waking the readers changes no count and leaves none blocked. -/
theorem unblockReaders_place (s : System T) (u : T) :
    ((unblockReaders s).place u).reads = (s.place u).reads ∧ ((unblockReaders s).place u).waits = (s.place u).waits ∧
      (unblockReaders s).place u ≠ .readBlocked ∧
      ((unblockReaders s).place u = .writing → s.place u = .writing) := by
  unfold unblockReaders
  cases h : s.place u <;> simp [h, reads, waits]

theorem inv_writeRelease (hi : Inv s) (hf : Few s) (ht : s.place t = .writing)
    (hs : rwmutex_write_release s t woken = some s') : Inv s' := by
  have hcr := tally_stay reads .outside ht rfl
  have hcw := tally_stay waits .outside ht rfl
  have hnone : ∀ u, update s.place t .outside u ≠ .writing := by
    intro u hu
    obtain ⟨hut, hu⟩ := of_update hu nofun
    exact hut (hi.one u t hu ht)
  simp only [rwmutex_write_release] at hs
  split_ifs at hs with hpos
  · have hb : Base (dropWrite s t) := by
      refine .free ?_ ?_ rfl hnone fun hn => ?_
      · simp only [dropWrite, hcr]
        exact hi.active
      · simp only [dropWrite, hcw]
        exact hi.waiting
      · rw [show tally waits (dropWrite s t).place = _ from hcw, ← hi.waiting_zero hf] at hn
        rw [show (dropWrite s t).mtx.waitingWriters = _ from hn] at hpos
        cases hpos
    exact inv_unblockWriter hb hs
  · cases hs
    have hzero : tally waits s.place = 0 := by
      rw [← hi.waiting_zero hf]
      simpa [dropWrite] using hpos
    have hreads : tally reads (unblockReaders (dropWrite s t)).place = tally reads s.place :=
      (tally_congr fun u => (unblockReaders_place (dropWrite s t) u).1).trans hcr
    have hwaits : tally waits (unblockReaders (dropWrite s t)).place = tally waits s.place :=
      (tally_congr fun u => (unblockReaders_place (dropWrite s t) u).2.1).trans hcw
    have hnone' : ∀ u, (unblockReaders (dropWrite s t)).place u ≠ .writing :=
      fun u hu => hnone u ((unblockReaders_place (dropWrite s t) u).2.2.2 hu)
    refine ⟨.free ?_ ?_ rfl hnone' fun _ u => (unblockReaders_place (dropWrite s t) u).2.2.1, fun _ _ u hu => ?_⟩
    · rw [hreads]
      exact hi.active
    · rw [hwaits]
      exact hi.waiting
    · have := tally_eq_zero (hwaits.trans hzero) u
      rw [hu] at this
      cases this

theorem inv_step {a : Action T} (hi : Inv s) (hf : Few s) (hs : step s a = some s') : Inv s' := by
  cases a <;> simp only [step, ite_none_right_eq_some] at hs
  case readAcquire t prepares => exact inv_readLoop hi hf (.inl hs.1) hs.2
  case readTryAcquire t =>
    obtain ⟨ht, hs⟩ := hs
    rw [← some.inj hs, rwmutex_read_try_acquire]
    split_ifs with hbusy
    · exact hi
    · have hcond : s.mtx.hasWriter = false ∧ tally waits s.place = 0 := by
        rw [← hi.waiting_zero hf]
        simpa [and_comm] using hbusy
      exact hi.takeRead ht rfl rfl hcond.1 hcond.2
  case readRelease t woken => exact inv_readRelease hi hf hs.1 hs.2
  case writeAcquire t prepares => exact inv_writeAcquire hi hf hs.1 hs.2
  case writeTryAcquire t =>
    obtain ⟨ht, hs⟩ := hs
    rw [← some.inj hs, rwmutex_write_try_acquire]
    split_ifs with hbusy
    · exact hi
    · have hcond : tally reads s.place = 0 ∧ s.mtx.hasWriter = false := by
        rw [← hi.active_zero hf]
        simpa using hbusy
      have hcw := tally_stay waits .writing ht rfl
      exact hi.takeWrite ht rfl hcond.2 hcond.1 (by rw [hcw]; exact hi.waiting)
  case writeRelease t woken => exact inv_writeRelease hi hf hs.1 hs.2
  case wake t =>
    obtain ⟨ht, hs⟩ := hs
    cases hs
    cases hp : s.place t with
    | readBlocked =>
      exact hi.block (p := .readWoken) hp rfl rfl nofun nofun (fun h => h.elim nofun nofun) nofun
    | writeBlocked =>
      exact ⟨hi.toBase.place (p := .writeWoken) hp rfl rfl nofun nofun nofun, fun _ _ _ _ => ⟨t, update_self ..⟩⟩
    | outside | readWoken | reading | writeWoken | writing =>
      rw [hp] at ht
      cases ht
  case resume t commit prepares =>
    split_ifs at hs with hr hw
    · exact inv_readLoop hi hf (.inr hr) hs
    · exact inv_writeLoop hi hf hw hs

/-- Along every run of any number of threads, the mutex is right in every state
exactly if in every state fewer than `2 ^ 16` threads read and fewer than that wait
to write. -/
theorem rwmutex_right_iff_few (as : List (Action T)) :
    Always step Right (init : System T) as ↔ Always step Few (init : System T) as := by
  constructor
  · intro h
    refine h.mono fun s hr => ⟨?_, ?_⟩
    · rw [← hr.activeReaders]
      exact s.mtx.activeReaders.isLt
    · rw [← hr.waitingWriters]
      exact s.mtx.waitingWriters.isLt
  · intro h
    refine (h.strengthen (fun s a s' hi hf hs => inv_step hi hf hs) inv_init).mono ?_
    rintro s ⟨hi, hf⟩
    exact hi.right hf

/-! ## As many readers as the counter has values -/

/-- Threads that acquire the mutex to read, one after the other, are fewer than the counter has values. -/
theorem readers_few (l : List T) (rest : List (Action T)) (hl : l.Nodup) (hout : ∀ t ∈ l, s.place t = .outside)
    (hw : s.mtx.hasWriter = false) (hn : s.mtx.waitingWriters = 0#16)
    (h : Always step Right s (l.map (.readAcquire · [.zero]) ++ rest)) : tally reads s.place + l.length < 2 ^ 16 := by
  induction l generalizing s with
  | nil =>
    rw [← h.head.activeReaders]
    exact s.mtx.activeReaders.isLt
  | cons t l ih =>
    obtain ⟨htl, hl⟩ := nodup_cons.1 hl
    obtain ⟨ht, hout⟩ := forall_mem_cons.1 hout
    have hstep : step s (.readAcquire t [.zero]) = some (takeRead s t) := by
      simp [step, ht, rwmutex_read_acquire, readLoop, readCondition, hw, hn, waitNever, WAIT_BLOCK_LOCK]
    have hout' : ∀ u ∈ l, (takeRead s t).place u = .outside := by
      intro u hu
      exact (update_of_ne (ne_of_mem_of_not_mem hu htl) ..).trans (hout u hu)
    have hfew := ih hl hout' hw hn (h.2 _ hstep)
    have hone : tally reads (takeRead s t).place = tally reads s.place + 1 := tally_enter reads .reading ht rfl rfl
    rw [length_cons]
    omega

/-- All threads but the last acquire the mutex to read, and the last one acquires it to
write. -/
def crowd (n : Nat) : List (Action (Fin (n + 1))) :=
  ((List.finRange n).map Fin.castSucc).map (.readAcquire · [.zero]) ++ [.writeAcquire (Fin.last n) [.zero]]

theorem crowd_wrong {n : Nat} (hn : 2 ^ 16 ≤ n) : ¬ Always step Right (init : System (Fin (n + 1))) (crowd n) := by
  intro h
  have hnodup : ((List.finRange n).map Fin.castSucc).Nodup := (nodup_finRange n).map (Fin.castSucc_injective n)
  have hfew := readers_few _ _ hnodup (fun _ _ => rfl) rfl rfl h
  rw [length_map, length_finRange] at hfew
  omega

/-- The counter is not the number of `2 ^ 16` readers, and a writer joins them. -/
theorem crowd_not_right : ¬ Always step Right (init : System (Fin (65536 + 1))) (crowd 65536) :=
  crowd_wrong (Nat.le_refl _)

end Patchwork.RwMutex
