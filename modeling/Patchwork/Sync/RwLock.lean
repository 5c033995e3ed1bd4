import Patchwork.Lib.Agents
import Patchwork.Lib.Runs
import Patchwork.Lib.Tickets
/-!
# The read-write ticket lock

`sync/rwlock.h`, one step for each atomic operation. A reader adds itself to
`activeReaders` before it compares the two write counters, and a writer takes its
ticket before it looks at `activeReaders`. So from the moment a reader is counted no
writer enters, and at most the one that is inside leaves: `writeServe` goes on by one
at most until the reader has made its two loads, and the loads mean what they say
although the tickets wrap.

C leaves open which side of the comparison is loaded first, so either may be. A CPU
that takes the lock for reading twice counts as two.
-/

namespace Patchwork.RwLock

open BitVec Function Lib

variable {C : Type} [DecidableEq C]

structure rwlock_t where
  readTicket : BitVec 16
  readServe : BitVec 16
  writeTicket : BitVec 16
  writeServe : BitVec 16
  activeReaders : BitVec 16
deriving Repr, DecidableEq

/-- Where a CPU is. -/
inductive Place where
  | outside
  /-- In `rwlock_read_acquire`, waiting for its turn among the readers. -/
  | readTurn (ticket : BitVec 16)
  /-- Before `activeReaders` goes up. -/
  | readAdd
  /-- Before the comparison, and between its loads: with `writeServe` or with
  `writeTicket` loaded. -/
  | check
  | checkTicket (serve : BitVec 16)
  | checkServe (ticket : BitVec 16)
  /-- Before `activeReaders` goes down again. -/
  | readSub
  /-- In the inner loop, at the same three points. -/
  | spin
  | spinTicket (serve : BitVec 16)
  | spinServe (ticket : BitVec 16)
  /-- Before `readServe` goes up. -/
  | readDone
  | reading
  /-- In `rwlock_write_acquire`, in its first loop and in its second. -/
  | writeTurn (ticket : BitVec 16)
  | writeDrain
  | writing
deriving Repr, DecidableEq

namespace Place

def busy : Place → Bool
  | .outside => false
  | _ => true

/-- Counted in `activeReaders`. -/
def counted : Place → Bool
  | .check | .checkTicket _ | .checkServe _ | .readSub | .readDone | .reading => true
  | .outside | .readTurn _ | .readAdd | .spin | .spinTicket _ | .spinServe _ | .writeTurn _ | .writeDrain
  | .writing => false

/-- Holds the lock for writing or waits for that. -/
def writer : Place → Bool
  | .writeTurn _ | .writeDrain | .writing => true
  | .outside | .readTurn _ | .readAdd | .check | .checkTicket _ | .checkServe _ | .readSub | .spin | .spinTicket _
  | .spinServe _ | .readDone | .reading => false

/-- On the way back from the comparison, or to it. -/
def loose : Place → Bool
  | .readAdd | .readSub | .spin | .spinTicket _ | .spinServe _ => true
  | _ => false

theorem busy_of_writer {p : Place} (h : p.writer = true) : p.busy = true := by
  cases p <;> first | rfl | cases h

theorem busy_of_counted {p : Place} (h : p.counted = true) : p.busy = true := by
  cases p <;> first | rfl | cases h

theorem counted_of_writer {p : Place} (h : p.writer = true) : p.counted = false := by
  cases p <;> first | rfl | cases h

end Place

structure System (C : Type) where
  lock : rwlock_t
  place : C → Place

def rwlock_init : rwlock_t :=
  { readTicket := 0, readServe := 0, writeTicket := 0, writeServe := 0, activeReaders := 0 }

def init : System C := { lock := rwlock_init, place := fun _ => .outside }

def System.goto (s : System C) (c : C) (place : Place) : System C :=
  { s with place := update s.place c place }

/-- The first operation of `rwlock_read_acquire`. -/
def rwlock_read_acquire (s : System C) (c : C) : System C :=
  { lock := { s.lock with readTicket := s.lock.readTicket + 1 }
    place := update s.place c (.readTurn s.lock.readTicket) }

def rwlock_read_release (s : System C) (c : C) : System C :=
  { lock := { s.lock with activeReaders := s.lock.activeReaders - 1 }
    place := update s.place c .outside }

/-- The first operation of `rwlock_write_acquire`. -/
def rwlock_write_acquire (s : System C) (c : C) : System C :=
  { lock := { s.lock with writeTicket := s.lock.writeTicket + 1 }
    place := update s.place c (.writeTurn s.lock.writeTicket) }

def rwlock_write_release (s : System C) (c : C) : System C :=
  { lock := { s.lock with writeServe := s.lock.writeServe + 1 }
    place := update s.place c .outside }

/-- The next operation of a CPU that is acquiring the lock. `serveFirst` says which
load of a comparison comes first. -/
def advance (s : System C) (c : C) (serveFirst : Bool) : Option (System C) :=
  match s.place c with
  | .outside | .reading | .writing => none
  | .readTurn ticket => if s.lock.readServe = ticket then some (s.goto c .readAdd) else some s
  | .readAdd =>
    some
      { lock := { s.lock with activeReaders := s.lock.activeReaders + 1 }
        place := update s.place c .check }
  | .check =>
    if serveFirst then some (s.goto c (.checkTicket s.lock.writeServe))
    else some (s.goto c (.checkServe s.lock.writeTicket))
  | .checkTicket serve =>
    if serve = s.lock.writeTicket then some (s.goto c .readDone) else some (s.goto c .readSub)
  | .checkServe ticket =>
    if s.lock.writeServe = ticket then some (s.goto c .readDone) else some (s.goto c .readSub)
  | .readSub =>
    some
      { lock := { s.lock with activeReaders := s.lock.activeReaders - 1 }
        place := update s.place c .spin }
  | .spin =>
    if serveFirst then some (s.goto c (.spinTicket s.lock.writeServe))
    else some (s.goto c (.spinServe s.lock.writeTicket))
  | .spinTicket serve =>
    if serve ≠ s.lock.writeTicket then some (s.goto c .spin) else some (s.goto c .readAdd)
  | .spinServe ticket =>
    if s.lock.writeServe ≠ ticket then some (s.goto c .spin) else some (s.goto c .readAdd)
  | .readDone =>
    some
      { lock := { s.lock with readServe := s.lock.readServe + 1 }
        place := update s.place c .reading }
  | .writeTurn ticket => if s.lock.writeServe = ticket then some (s.goto c .writeDrain) else some s
  | .writeDrain => if s.lock.activeReaders > 0 then some s else some (s.goto c .writing)

inductive Action (C : Type) where
  | readAcquire (c : C)
  | readRelease (c : C)
  | writeAcquire (c : C)
  | writeRelease (c : C)
  | advance (c : C) (serveFirst : Bool)
deriving Repr, DecidableEq

def step (s : System C) : Action C → Option (System C)
  | .readAcquire c => if s.place c = .outside then some (rwlock_read_acquire s c) else none
  | .readRelease c => if s.place c = .reading then some (rwlock_read_release s c) else none
  | .writeAcquire c => if s.place c = .outside then some (rwlock_write_acquire s c) else none
  | .writeRelease c => if s.place c = .writing then some (rwlock_write_release s c) else none
  | .advance c serveFirst => advance s c serveFirst

/-- While a CPU holds the lock for writing, no other one holds it. -/
def Exclusive (s : System C) : Prop :=
  ∀ c d, s.place c = .writing → d ≠ c → s.place d ≠ .writing ∧ s.place d ≠ .reading

section Bounds
variable [Fintype C]

/-- At most `2 ^ 16 - 1` CPUs hold the lock or are acquiring it. -/
def Bounded (s : System C) : Prop := tally Place.busy s.place ≤ 2 ^ 16 - 1

instance (s : System C) : Decidable (Bounded s) := inferInstanceAs (Decidable (_ ≤ _))

end Bounds

/-! ## The queue of writers -/

/-- Nobody holds the lock for writing. -/
def Quiet (s : System C) : Prop := ∀ c, s.place c ≠ .writing

variable [Fintype C]

/-- The writers are those of the queue `q`. -/
structure Inv (s : System C) (q : List C) : Prop where
  tickets : Tickets s.lock.writeServe s.lock.writeTicket q fun c t => s.place c = .writeTurn t
  mem : ∀ c, c ∈ q ↔ (s.place c).writer = true
  first : ∀ c, s.place c = .writeDrain ∨ s.place c = .writing → q.head? = some c
  active : s.lock.activeReaders = BitVec.ofNat 16 (tally Place.counted s.place)
  /-- After the load of `writeServe` the writer that was inside may have left. -/
  serve : ∀ c v, s.place c = .checkTicket v → v = s.lock.writeServe ∨ v + 1 = s.lock.writeServe ∧ Quiet s
  /-- The writers that had no ticket at the load of `writeTicket` are not inside. -/
  ticket : ∀ c v, s.place c = .checkServe v →
    ∃ i ≤ q.length, v = s.lock.writeServe + BitVec.ofNat 16 i ∧ (i = 0 → Quiet s)
  inside : ∀ c, s.place c = .readDone ∨ s.place c = .reading → Quiet s

variable {s s' : System C} {q : List C} {c d : C} {o p : Place} {l : rwlock_t}

namespace Inv

omit [DecidableEq C]

section
variable (hi : Inv s q)
include hi

theorem exclusive : Exclusive s := by
  intro c d hc hdc
  constructor
  · intro hd
    exact hdc (Option.some.inj ((hi.first d (.inr hd)).symm.trans (hi.first c (.inr hc))))
  · intro hd
    exact hi.inside d (.inr hd) c hc

theorem notMem (hc : s.place c = o) (ho : o.writer = false) : c ∉ q := by
  rw [hi.mem, hc, ho]
  nofun

theorem quiet (hq : q = []) : Quiet s := by
  intro c hc
  have := hi.first c (.inr hc)
  rw [hq] at this
  cases this

theorem length_lt (hb : Bounded s) : q.length < 2 ^ 16 := by
  have hbusy : ∀ c ∈ q, (s.place c).busy = true := fun c hc => Place.busy_of_writer ((hi.mem c).1 hc)
  have hle := length_le_tally hi.tickets.nodup hbusy
  have hb' : tally Place.busy s.place ≤ 2 ^ 16 - 1 := hb
  omega

/-- A reader that finds the two counters equal finds no writer inside. -/
theorem quiet_of_ticket (hb : Bounded s) (hc : s.place c = .checkTicket s.lock.writeTicket) : Quiet s := by
  rcases hi.serve c _ hc with heq | ⟨-, hquiet⟩
  · exact hi.quiet (hi.tickets.eq_nil (hi.length_lt hb) heq)
  · exact hquiet

theorem quiet_of_serve (hb : Bounded s) (hc : s.place c = .checkServe s.lock.writeServe) : Quiet s := by
  have hlen := hi.length_lt hb
  obtain ⟨i, hle, heq, hquiet⟩ := hi.ticket c _ hc
  exact hquiet ((add_ofNat_eq_iff s.lock.writeServe (hle.trans_lt hlen)).1 heq.symm)

/-- A writer that loads zero from `activeReaders` finds no reader counted. -/
theorem not_counted (hb : Bounded s) (hzero : s.lock.activeReaders = 0) (c : C) : (s.place c).counted = false := by
  have hle : tally Place.counted s.place ≤ tally Place.busy s.place := by
    apply Finset.card_le_card
    intro c hc
    simp only [Finset.mem_filter, Finset.mem_univ, true_and] at hc ⊢
    exact Place.busy_of_counted hc
  have hb' : tally Place.busy s.place ≤ 2 ^ 16 - 1 := hb
  apply tally_eq_zero (p := Place.counted) (f := s.place)
  rw [hi.active, ← toNat_inj, toNat_ofNat, Nat.mod_eq_of_lt (by omega)] at hzero
  exact hzero

end

end Inv

omit [DecidableEq C] in
theorem inv_init : Inv (init : System C) [] where
  tickets := Tickets.empty _ nofun
  mem _ := ⟨nofun, nofun⟩
  first _ hc := hc.elim nofun nofun
  active := by
    have : tally Place.counted (init : System C).place = 0 := by simp [tally, init, Place.counted]
    rw [this]
    rfl
  serve _ _ hc := nomatch hc
  ticket _ _ hc := nomatch hc
  inside _ hc := hc.elim nofun nofun

/-! ## Readers -/

omit [Fintype C] in
theorem Quiet.update (h : Quiet s) (hp : p ≠ .writing) : Quiet ⟨l, update s.place c p⟩ :=
  fun d hd => h d (of_update hd hp).2

section
variable (hi : Inv s q)
include hi

section
variable (hc : s.place c = o) (ho : o.writer = false)
include hc ho

/-- A CPU that is not a writer goes on. It may only pass the comparison if there is
no writer inside. -/
theorem Inv.reader (hp : p.writer = false) (hserve : l.writeServe = s.lock.writeServe)
    (hticket : l.writeTicket = s.lock.writeTicket)
    (hactive : l.activeReaders = BitVec.ofNat 16 (tally Place.counted (update s.place c p)))
    (hcheckTicket : ∀ v, p = .checkTicket v → v = s.lock.writeServe)
    (hcheckServe : ∀ v, p = .checkServe v → v = s.lock.writeTicket)
    (hinside : p = .readDone ∨ p = .reading → Quiet s) : Inv ⟨l, update s.place c p⟩ q := by
  have hne : ∀ p', p'.writer = true → p ≠ p' := by
    rintro p' hw rfl
    cases hp.symm.trans hw
  have hpw := hne .writing rfl
  constructor
  · rw [hserve, hticket]
    exact hi.tickets.mono fun d t hd => (of_update hd (hne _ rfl)).2
  · intro d
    by_cases hdc : d = c
    · simp [hdc, hp, hi.notMem hc ho]
    · simpa [hdc] using hi.mem d
  · intro d hd
    exact hi.first d (of_update_or hd (hne _ rfl) (hne _ rfl)).2
  · exact hactive
  · intro d v hd
    rw [hserve]
    rcases update_cases hd with ⟨-, hp⟩ | ⟨-, hd⟩
    · exact .inl (hcheckTicket v hp)
    · exact (hi.serve d v hd).imp id fun h => ⟨h.1, h.2.update hpw⟩
  · intro d v hd
    rw [hserve]
    rcases update_cases hd with ⟨-, hp⟩ | ⟨-, hd⟩
    · refine ⟨q.length, le_rfl, by rw [hcheckServe v hp, hi.tickets.next_eq], fun hlen => ?_⟩
      exact (hi.quiet (List.eq_nil_of_length_eq_zero hlen)).update hpw
    · obtain ⟨i, hle, heq, hquiet⟩ := hi.ticket d v hd
      exact ⟨i, hle, heq, fun h0 => (hquiet h0).update hpw⟩
  · intro d hd
    by_cases hp : p = .readDone ∨ p = .reading
    · exact (hinside hp).update hpw
    · exact (hi.inside d (of_update_or hd (fun h => hp (.inl h)) fun h => hp (.inr h)).2).update hpw

/-- The same, where the lock stays as it is. -/
theorem Inv.readerGoto (hp : p.writer = false) (hcounted : p.counted = o.counted)
    (hcheckTicket : ∀ v, p = .checkTicket v → v = s.lock.writeServe)
    (hcheckServe : ∀ v, p = .checkServe v → v = s.lock.writeTicket)
    (hinside : p = .readDone ∨ p = .reading → Quiet s) : Inv (s.goto c p) q :=
  hi.reader hc ho hp rfl rfl (by rw [tally_stay _ _ hc hcounted]; exact hi.active) hcheckTicket hcheckServe hinside

theorem Inv.loose (hp : p.loose = true) (hcounted : p.counted = o.counted) : Inv (s.goto c p) q := by
  have hw : p.writer = false := by
    cases p <;> first | rfl | cases hp
  refine hi.readerGoto hc ho hw hcounted ?_ ?_ ?_
  · rintro v rfl
    cases hp
  · rintro v rfl
    cases hp
  · rintro (rfl | rfl)
    · cases hp
    · cases hp

end

/-! ## Writers -/

theorem inv_write_acquire (hc : s.place c = .outside) : Inv (rwlock_write_acquire s c) (q ++ [c]) := by
  have hnot := hi.notMem hc rfl
  have hpush : Tickets s.lock.writeServe (s.lock.writeTicket + 1) (q ++ [c]) fun d t =>
      update s.place c (.writeTurn s.lock.writeTicket) d = .writeTurn t := by
    refine hi.tickets.push hnot fun d t hd => ?_
    rcases update_cases hd with ⟨hdc, ht⟩ | ⟨-, hd⟩
    · exact .inr ⟨hdc, (Place.writeTurn.inj ht).symm⟩
    · exact .inl hd
  refine ⟨hpush, fun d => ?_, fun d hd => ?_, ?_, fun d v hd => ?_, fun d v hd => ?_, fun d hd => ?_⟩
  · by_cases hdc : d = c
    · simp [rwlock_write_acquire, hdc, Place.writer]
    · simpa [rwlock_write_acquire, hdc] using hi.mem d
  · rw [List.head?_append, hi.first d (of_update_or hd nofun nofun).2]
    rfl
  · exact hi.active.trans (by rw [rwlock_write_acquire, tally_stay _ (.writeTurn _) hc rfl])
  · exact (hi.serve d v (of_update hd nofun).2).imp id fun h => ⟨h.1, h.2.update nofun⟩
  · obtain ⟨i, hle, heq, hquiet⟩ := hi.ticket d v (of_update hd nofun).2
    exact ⟨i, hle.trans (by simp), heq, fun h0 => (hquiet h0).update nofun⟩
  · exact (hi.inside d (of_update_or hd nofun nofun).2).update nofun

/-- A writer of the queue goes on, and enters only if no reader is counted. -/
theorem Inv.writer (hhead : q.head? = some c) (hc : s.place c = o) (ho : o.writer = true)
    (hp : p = .writeDrain ∨ p = .writing) (hnone : p = .writing → ∀ d, (s.place d).counted = false) :
    Inv (s.goto c p) q := by
  have hpw : p.writer = true := by
    rcases hp with rfl | rfl
    · rfl
    · rfl
  have hcounted : p.counted = o.counted := by
    rw [Place.counted_of_writer hpw, Place.counted_of_writer ho]
  have hne : ∀ p', p'.writer = false → p ≠ p' := by
    rintro p' hw rfl
    cases hpw.symm.trans hw
  -- Where a reader is counted, this is not the step by which the writer enters.
  have hquiet : ∀ d, (s.place d).counted = true → Quiet s → Quiet (s.goto c p) := by
    intro d hd hq
    refine hq.update fun hwriting => ?_
    rw [hnone hwriting d] at hd
    cases hd
  refine ⟨hi.tickets.mono fun d t hd => ?_, fun d => ?_, fun d hd => ?_, ?_, fun d v hd => ?_, fun d v hd => ?_,
    fun d hd => ?_⟩
  · refine (of_update hd ?_).2
    rcases hp with rfl | rfl
    · nofun
    · nofun
  · by_cases hdc : d = c
    · simp [System.goto, hdc, hpw, hi.mem, hc, ho]
    · simpa [System.goto, hdc] using hi.mem d
  · by_cases hdc : d = c
    · rw [hdc]
      exact hhead
    · exact hi.first d (by simpa [System.goto, hdc] using hd)
  · rw [System.goto, tally_stay _ _ hc hcounted]
    exact hi.active
  · have hd' := (of_update hd (hne _ rfl)).2
    exact (hi.serve d v hd').imp id fun h => ⟨h.1, hquiet d (by rw [hd']; rfl) h.2⟩
  · have hd' := (of_update hd (hne _ rfl)).2
    obtain ⟨i, hle, heq, hq⟩ := hi.ticket d v hd'
    exact ⟨i, hle, heq, fun h0 => hquiet d (by rw [hd']; rfl) (hq h0)⟩
  · have hd' := (of_update_or hd (hne _ rfl) (hne _ rfl)).2
    refine hquiet d ?_ (hi.inside d hd')
    rcases hd' with hd' | hd'
    · rw [hd']
      rfl
    · rw [hd']
      rfl

theorem inv_write_release (hc : s.place c = .writing) : Inv (rwlock_write_release s c) q.tail := by
  obtain ⟨q', rfl⟩ : ∃ q', q = c :: q' := List.head?_eq_some_iff.1 (hi.first c (.inr hc))
  have hnot : c ∉ q' := (List.nodup_cons.1 hi.tickets.nodup).1
  have hpop : Tickets (s.lock.writeServe + 1) s.lock.writeTicket q' fun d t =>
      update s.place c .outside d = .writeTurn t :=
    (hi.tickets.pop (by rw [hc]; nofun)).mono fun d t hd => (of_update hd nofun).2
  -- The one that was inside has left.
  have hquiet : Quiet (rwlock_write_release s c) := by
    intro d hd
    obtain ⟨hdc, hd'⟩ := of_update hd nofun
    exact hdc (Option.some.inj (hi.first d (.inr hd'))).symm
  refine ⟨hpop, fun d => ?_, fun d hd => ?_, ?_, fun d v hd => ?_, fun d v hd => ?_, fun _ _ => hquiet⟩
  · by_cases hdc : d = c
    · simp [rwlock_write_release, hdc, hnot, Place.writer]
    · have := hi.mem d
      simpa [rwlock_write_release, hdc] using this
  · rcases hd with hd | hd
    · obtain ⟨hdc, hd'⟩ := of_update hd nofun
      exact absurd (Option.some.inj (hi.first d (.inl hd'))).symm hdc
    · exact absurd hd (hquiet d)
  · exact hi.active.trans (by rw [rwlock_write_release, tally_stay _ .outside hc rfl])
  · rcases hi.serve d v (of_update hd nofun).2 with heq | ⟨-, hq⟩
    · exact .inr ⟨by rw [heq]; rfl, hquiet⟩
    · exact absurd hc (hq c)
  · obtain ⟨i, hle, heq, hq⟩ := hi.ticket d v (of_update hd nofun).2
    cases i with
    | zero => exact absurd hc (hq rfl c)
    | succ i =>
      refine ⟨i, ?_, ?_, fun _ => hquiet⟩
      · simpa using hle
      · rw [heq, add_ofNat_succ]
        rfl

/-! ## Runs -/

theorem inv_advance {serveFirst : Bool} (hb : Bounded s) (hs : advance s c serveFirst = some s') :
    ∃ q', Inv s' q' := by
  unfold advance at hs
  cases hc : s.place c <;> simp only [hc, reduceCtorEq] at hs
  case readTurn t =>
    split_ifs at hs
    · cases hs
      exact ⟨q, hi.loose hc rfl rfl rfl⟩
    · cases hs
      exact ⟨q, hi⟩
  case readAdd =>
    cases hs
    have hcount := tally_enter Place.counted .check hc rfl rfl
    refine ⟨q, hi.reader hc rfl rfl rfl rfl ?_ nofun nofun (fun h => h.elim nofun nofun)⟩
    rw [hcount, ofNat_add, ← hi.active]
    rfl
  case check =>
    split_ifs at hs
    · cases hs
      exact ⟨q, hi.readerGoto hc rfl rfl rfl (fun v hv => (Place.checkTicket.inj hv).symm) nofun
        (fun h => h.elim nofun nofun)⟩
    · cases hs
      exact ⟨q, hi.readerGoto hc rfl rfl rfl nofun (fun v hv => (Place.checkServe.inj hv).symm)
        (fun h => h.elim nofun nofun)⟩
  case checkTicket v =>
    split_ifs at hs with heq
    · cases hs
      exact ⟨q, hi.readerGoto hc rfl rfl rfl nofun nofun
        fun _ => hi.quiet_of_ticket hb (heq ▸ hc)⟩
    · cases hs
      exact ⟨q, hi.loose hc rfl rfl rfl⟩
  case checkServe v =>
    split_ifs at hs with heq
    · cases hs
      exact ⟨q, hi.readerGoto hc rfl rfl rfl nofun nofun
        fun _ => hi.quiet_of_serve hb (heq ▸ hc)⟩
    · cases hs
      exact ⟨q, hi.loose hc rfl rfl rfl⟩
  case readSub =>
    cases hs
    have hcount := tally_leave Place.counted .spin hc rfl rfl
    refine ⟨q, hi.reader hc rfl rfl rfl rfl ?_ nofun nofun (fun h => h.elim nofun nofun)⟩
    rw [hi.active, ← hcount, ofNat_add]
    exact add_sub_cancel _ _
  case spin | spinTicket | spinServe =>
    split_ifs at hs
    · cases hs
      exact ⟨q, hi.loose hc rfl rfl rfl⟩
    · cases hs
      exact ⟨q, hi.loose hc rfl rfl rfl⟩
  case readDone =>
    cases hs
    have hcount := tally_stay Place.counted .reading hc rfl
    exact ⟨q, hi.reader hc rfl rfl rfl rfl (by rw [hcount]; exact hi.active) nofun nofun
      fun _ => hi.inside c (.inl hc)⟩
  case writeTurn t =>
    split_ifs at hs with heq
    · cases hs
      have hhead := hi.tickets.head (hi.length_lt hb).le (show s.place c = .writeTurn s.lock.writeServe from heq ▸ hc)
      exact ⟨q, hi.writer hhead hc rfl (.inl rfl) nofun⟩
    · cases hs
      exact ⟨q, hi⟩
  case writeDrain =>
    split_ifs at hs with hpos
    · cases hs
      exact ⟨q, hi⟩
    · cases hs
      have hzero : s.lock.activeReaders = 0 := by simpa using hpos
      exact ⟨q, hi.writer (hi.first c (.inl hc)) hc rfl (.inr rfl) fun _ => hi.not_counted hb hzero⟩

end

theorem inv_step {a : Action C} (hi : ∃ q, Inv s q) (hb : Bounded s) (hs : step s a = some s') : ∃ q, Inv s' q := by
  obtain ⟨q, hi⟩ := hi
  cases a <;> simp only [step] at hs
  case readAcquire c =>
    split_ifs at hs with hc
    cases hs
    have hcount := tally_stay Place.counted (.readTurn s.lock.readTicket) hc rfl
    exact ⟨q, hi.reader hc rfl rfl rfl rfl (by rw [hcount]; exact hi.active) nofun nofun
      (fun h => h.elim nofun nofun)⟩
  case readRelease c =>
    split_ifs at hs with hc
    cases hs
    have hcount := tally_leave Place.counted .outside hc rfl rfl
    refine ⟨q, hi.reader hc rfl rfl rfl rfl ?_ nofun nofun (fun h => h.elim nofun nofun)⟩
    rw [hi.active, ← hcount, ofNat_add]
    exact add_sub_cancel _ _
  case writeAcquire c =>
    split_ifs at hs with hc
    cases hs
    exact ⟨_, inv_write_acquire hi hc⟩
  case writeRelease c =>
    split_ifs at hs with hc
    cases hs
    exact ⟨_, inv_write_release hi hc⟩
  case advance c serveFirst => exact inv_advance hi hb hs

/-- Along every run of any number of CPUs, at most `2 ^ 16 - 1` of them at the lock
at a time, the lock is exclusive in every state. -/
theorem rwlock_exclusive (as : List (Action C)) (has : Along step (fun s _ => Bounded s) (init : System C) as) :
    Always step Exclusive (init : System C) as := by
  refine (has.always (fun s a s' hi hb hs => inv_step hi hb hs) ⟨[], inv_init⟩).mono ?_
  rintro s ⟨q, hi⟩
  exact hi.exclusive

/-- A reader has loaded `writeServe` when a writer takes its ticket. The reader backs
off, and the writer enters. -/
def backedOff : List (Action (Fin 2)) :=
  [.readAcquire 0, .advance 0 true, .advance 0 true, .advance 0 true, .writeAcquire 1, .advance 1 true, .advance 0 true,
    .advance 0 true, .advance 1 true]

theorem backedOff_exclusive : Always step Exclusive (init : System (Fin 2)) backedOff :=
  rwlock_exclusive backedOff (by decide +kernel)

end Patchwork.RwLock
