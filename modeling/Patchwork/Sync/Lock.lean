import Patchwork.Lib.Agents
import Patchwork.Lib.Runs
import Patchwork.Lib.Tickets
/-!
# The spin lock

`sync/lock.h`, one step for each atomic operation. A CPU in `lock_acquire` has taken
a ticket and spins until it is served; one in `lock_try_acquire` has loaded
`nextTicket`, then seen that it is served, and then tries to take it.

The code has no lists of who took a ticket and who entered, and no record of how many
tickets there were at a load: they say what the lock is for. The compare-exchange
sees `nextTicket` unchanged also after `2 ^ 16` more tickets, and `lock_try_acquire`
then enters although the lock is held.
-/

namespace Patchwork.SpinLock

open List Function Lib

variable {C : Type} [DecidableEq C]

structure lock_t where
  nextTicket : BitVec 16
  nowServing : BitVec 16
deriving Repr, DecidableEq

/-- Where a CPU is. -/
inductive Place where
  | outside
  /-- In the loop of `lock_acquire`. -/
  | waiting (ticket : BitVec 16)
  /-- In `lock_try_acquire`, after the load of `nextTicket`. -/
  | loaded (ticket : BitVec 16)
  /-- In `lock_try_acquire`, before the compare-exchange. -/
  | served (ticket : BitVec 16)
  | holding
deriving Repr, DecidableEq

/-- Holds the lock or waits for it. -/
def Place.inLine : Place → Bool
  | .waiting _ | .holding => true
  | .outside | .loaded _ | .served _ => false

def Place.holds : Place → Bool
  | .holding => true
  | .outside | .waiting _ | .loaded _ | .served _ => false

@[simp] theorem holds_waiting (t : BitVec 16) : (Place.waiting t).holds = false := rfl
@[simp] theorem holds_holding : Place.holding.holds = true := rfl

structure System (C : Type) where
  lock : lock_t
  place : C → Place
  /-- Those who took a ticket, and those who entered, in order. -/
  taken : List C
  entered : List C
  /-- The number of tickets taken before the load of a CPU in `lock_try_acquire`. -/
  since : C → Nat

def lock_init : lock_t := { nextTicket := 0, nowServing := 0 }

def init : System C where
  lock := lock_init
  place := fun _ => .outside
  taken := []
  entered := []
  since := fun _ => 0

def System.goto (s : System C) (c : C) (place : Place) : System C :=
  { s with place := update s.place c place }

/-- `nextTicket` goes on by one. -/
def System.takeTicket (s : System C) (c : C) : System C :=
  { s with lock := { s.lock with nextTicket := s.lock.nextTicket + 1 }, taken := s.taken ++ [c] }

def System.enter (s : System C) (c : C) : System C :=
  { s with place := update s.place c .holding, entered := s.entered ++ [c] }

open SpinLock.System (goto takeTicket enter)

attribute [simp] goto takeTicket enter

/-- The first operation of `lock_acquire`. -/
def lock_acquire (s : System C) (c : C) : System C := (s.takeTicket c).goto c (.waiting s.lock.nextTicket)

/-- The first operation of `lock_try_acquire`. -/
def lock_try_acquire (s : System C) (c : C) : System C :=
  { s.goto c (.loaded s.lock.nextTicket) with since := update s.since c s.taken.length }

def lock_release (s : System C) (c : C) : System C :=
  { s.goto c .outside with lock := { s.lock with nowServing := s.lock.nowServing + 1 } }

/-- The next operation of a CPU that is in `lock_acquire` or `lock_try_acquire`. -/
def advance (s : System C) (c : C) : Option (System C) :=
  match s.place c with
  | .outside | .holding => none
  | .waiting ticket => if s.lock.nowServing = ticket then some (s.enter c) else some s
  | .loaded ticket =>
    if s.lock.nowServing = ticket then some (s.goto c (.served ticket)) else some (s.goto c .outside)
  | .served ticket =>
    if s.lock.nextTicket = ticket then some ((s.takeTicket c).enter c) else some (s.goto c .outside)

inductive Action (C : Type) where
  | acquire (c : C)
  | tryAcquire (c : C)
  | advance (c : C)
  | release (c : C)
deriving Repr, DecidableEq

def step (s : System C) : Action C → Option (System C)
  | .acquire c => if s.place c = .outside then some (lock_acquire s c) else none
  | .tryAcquire c => if s.place c = .outside then some (lock_try_acquire s c) else none
  | .advance c => advance s c
  | .release c => if s.place c = .holding then some (lock_release s c) else none

/-! ## What the lock is for -/

/-- At most one CPU holds the lock, and they enter in the order of their tickets. -/
structure Exclusive (s : System C) : Prop where
  one : ∀ c d, s.place c = .holding → s.place d = .holding → c = d
  order : s.entered <+: s.taken

/-- A `lock_try_acquire` that succeeds finds nobody in line, and one that fails
leaves the tickets alone. -/
def TryRight (s : System C) : Action C → Prop
  | .advance c => ∀ s', step s (.advance c) = some s' → (∀ ticket, s.place c ≠ .waiting ticket) →
    (s'.place c = .holding → ∀ d, (s.place d).inLine = false) ∧ (s'.place c = .outside → s'.lock = s.lock)
  | _ => True

/-- The tickets have not gone all the way round between the load of `nextTicket` and
a compare-exchange that succeeds. -/
def Timely (s : System C) : Action C → Prop
  | .advance c => s.place c = .served s.lock.nextTicket → s.taken.length < s.since c + 2 ^ 16
  | _ => True

instance (s : System C) : ∀ a, Decidable (Timely s a)
  | .advance _ => inferInstanceAs (Decidable (_ → _))
  | .acquire _ | .tryAcquire _ | .release _ => inferInstanceAs (Decidable True)

/-- At most `2 ^ 16 - 1` CPUs hold the lock or wait for it. -/
def Bounded [Fintype C] (s : System C) : Prop := tally Place.inLine s.place ≤ 2 ^ 16 - 1

instance [Fintype C] (s : System C) : Decidable (Bounded s) := inferInstanceAs (Decidable (_ ≤ _))

/-! ## The queue behind the tickets -/

/-- Those of the queue who have not entered. -/
def notEntered (place : C → Place) (q : List C) : List C := q.filter fun c => !(place c).holds

omit [DecidableEq C] in
/-- The CPUs in line are those of the queue `q`, the one that holds the lock being
the first. -/
structure Inv (s : System C) (q : List C) : Prop where
  tickets : Tickets s.lock.nowServing s.lock.nextTicket q fun c t => s.place c = .waiting t
  mem : ∀ c, c ∈ q ↔ (s.place c).inLine = true
  holding : ∀ c, s.place c = .holding → q.head? = some c
  /-- Those who have not entered are the queue without the one that holds the lock. -/
  taken : s.taken = s.entered ++ notEntered s.place q
  next : s.lock.nextTicket = BitVec.ofNat 16 s.taken.length
  loaded : ∀ c t, s.place c = .loaded t ∨ s.place c = .served t →
    s.since c ≤ s.taken.length ∧ t = BitVec.ofNat 16 (s.since c)
  served : ∀ c t, s.place c = .served t → s.taken.length = s.since c → q = []

variable {s s' : System C} {q : List C} {c d : C}

omit [DecidableEq C] in
theorem inv_init : Inv (init : System C) [] where
  tickets := Tickets.empty _ nofun
  mem _ := ⟨nofun, nofun⟩
  holding _ hc := nomatch hc
  taken := rfl
  next := rfl
  loaded _ _ hc := hc.elim nofun nofun
  served _ _ _ _ := rfl

omit [DecidableEq C] in
theorem Inv.exclusive (hi : Inv s q) : Exclusive s where
  one c d hc hd := Option.some.inj ((hi.holding c hc).symm.trans (hi.holding d hd))
  order := hi.taken ▸ prefix_append _ _

/-- A CPU that is not in the queue does not matter for who has not entered. -/
theorem notEntered_update {f : C → Place} {p : Place} (hc : c ∉ q) :
    notEntered (update f c p) q = notEntered f q := by
  apply filter_congr
  intro d hd
  have hdc : d ≠ c := fun he => hc (he ▸ hd)
  rw [update_of_ne hdc]

section
variable (hi : Inv s q)
include hi

omit [DecidableEq C] in
theorem Inv.notMem (hc : (s.place c).inLine = false) : c ∉ q := by
  rw [hi.mem, hc]
  nofun

/-! ## The operations -/

theorem Inv.aside (hc : (s.place c).inLine = false) {p : Place} (hp : p.inLine = false) {n : Nat}
    (hloaded : ∀ t, p = .loaded t ∨ p = .served t → n ≤ s.taken.length ∧ t = BitVec.ofNat 16 n)
    (hserved : ∀ t, p = .served t → s.taken.length = n → q = []) :
    Inv { s.goto c p with since := update s.since c n } q := by
  have hne : ∀ p', p'.inLine = true → p ≠ p' := by
    rintro p' hp' rfl
    cases hp.symm.trans hp'
  refine ⟨hi.tickets.mono fun d t hd => (of_update hd (hne _ rfl)).2, fun d => ?_,
    fun d hd => hi.holding d (of_update hd (hne _ rfl)).2, ?_, hi.next, fun d t hd => ?_, fun d t hd hn => ?_⟩
  · by_cases hdc : d = c
    · simp [hdc, hp, hi.notMem hc]
    · simpa [hdc] using hi.mem d
  · simp only [goto]
    rw [notEntered_update (hi.notMem hc)]
    exact hi.taken
  · by_cases hdc : d = c
    · simp only [goto, hdc, update_self] at hd ⊢
      exact hloaded t hd
    · simp only [goto, ne_eq, hdc, not_false_eq_true, update_of_ne] at hd ⊢
      exact hi.loaded d t hd
  · by_cases hdc : d = c
    · simp only [goto, hdc, update_self] at hd hn
      exact hserved t hd hn
    · simp only [goto, ne_eq, hdc, not_false_eq_true, update_of_ne] at hd hn
      exact hi.served d t hd hn

theorem inv_tryAcquire (hc : s.place c = .outside) : Inv (lock_try_acquire s c) q := by
  refine hi.aside (by rw [hc]; rfl) rfl ?_ nofun
  rintro t (ht | ht)
  · cases ht
    exact ⟨le_rfl, hi.next⟩
  · cases ht

theorem inv_fail (hc : (s.place c).inLine = false) : Inv (s.goto c .outside) q := by
  have := hi.aside hc (p := .outside) rfl (n := s.since c) (fun t ht => ht.elim nofun nofun) nofun
  rwa [update_eq_self] at this

theorem inv_served {t : BitVec 16} (hlen : q.length < 2 ^ 16) (hc : s.place c = .loaded t)
    (hserving : s.lock.nowServing = t) : Inv (s.goto c (.served t)) q := by
  obtain ⟨hle, ht⟩ := hi.loaded c t (.inl hc)
  have := hi.aside (c := c) (by rw [hc]; rfl) (p := .served t) rfl (n := s.since c) ?_ ?_
  · rwa [update_eq_self] at this
  · rintro u (hu | hu)
    · cases hu
    · cases hu
      exact ⟨hle, ht⟩
  · -- No ticket was taken since the load, so the one that is served is the next.
    intro u _ hn
    apply hi.tickets.eq_nil hlen
    rw [hserving, hi.next, hn, ht]

theorem Inv.getInLine (hc : (s.place c).inLine = false) {p : Place} (hp : p.inLine = true)
    (hwaiting : ∀ t, p = .waiting t → t = s.lock.nextTicket) (hholding : p = .holding → q = [])
    {entered : List C} (htaken : s.taken ++ [c] = entered ++ notEntered (update s.place c p) (q ++ [c])) :
    Inv { (s.takeTicket c).goto c p with entered } (q ++ [c]) := by
  have hloaded : ∀ d t, update s.place c p d = .loaded t ∨ update s.place c p d = .served t →
      s.place d = .loaded t ∨ s.place d = .served t := by
    intro d t hd
    refine (of_update_or hd ?_ ?_).2
    · rintro rfl
      cases hp
    · rintro rfl
      cases hp
  have hpush : Tickets s.lock.nowServing (s.lock.nextTicket + 1) (q ++ [c]) fun d t =>
      update s.place c p d = .waiting t := by
    refine hi.tickets.push (hi.notMem hc) fun d t hd => ?_
    rcases update_cases hd with ⟨hdc, hp⟩ | ⟨-, hd⟩
    · exact .inr ⟨hdc, hwaiting t hp⟩
    · exact .inl hd
  refine ⟨hpush, fun d => ?_, fun d hd => ?_, htaken, ?_, fun d t hd => ?_, fun d t hd hn => ?_⟩
  · by_cases hdc : d = c
    · simp [hdc, hp]
    · simpa [hdc] using hi.mem d
  · rcases update_cases hd with ⟨rfl, hp⟩ | ⟨-, hd⟩
    · rw [hholding hp]
      rfl
    · rw [head?_append, hi.holding d hd]
      rfl
  · simp only [takeTicket, goto, length_append, length_singleton, hi.next, BitVec.ofNat_add]
    rfl
  · obtain ⟨hle, ht⟩ := hi.loaded d t (hloaded d t hd)
    exact ⟨hle.trans (by simp), ht⟩
  · have hle := (hi.loaded d t (hloaded d t (.inr hd))).1
    simp only [takeTicket, goto, length_append, length_singleton] at hn
    omega

theorem inv_acquire (hc : s.place c = .outside) : Inv (lock_acquire s c) (q ++ [c]) := by
  have hout : (s.place c).inLine = false := by rw [hc]; rfl
  refine hi.getInLine hout rfl (fun t ht => (Place.waiting.inj ht).symm) nofun ?_
  simp only [takeTicket]
  rw [notEntered, filter_append, ← notEntered, notEntered_update (hi.notMem hout), ← append_assoc, ← hi.taken]
  simp [Place.holds]

theorem inv_enter (hlen : q.length < 2 ^ 16) (hc : s.place c = .waiting s.lock.nowServing) : Inv (s.enter c) q := by
  have hhead : q.head? = some c := hi.tickets.head hlen.le hc
  obtain ⟨q', rfl⟩ : ∃ q', q = c :: q' := head?_eq_some_iff.1 hhead
  have hnot : c ∉ q' := (nodup_cons.1 hi.tickets.nodup).1
  refine ⟨hi.tickets.mono fun d t hd => (of_update hd nofun).2, fun d => ?_, fun d hd => ?_, ?_, hi.next,
    fun d t hd => hi.loaded d t (of_update_or hd nofun nofun).2, fun d t hd => hi.served d t (of_update hd nofun).2⟩
  · rw [hi.mem]
    by_cases hdc : d = c
    · simp [hdc, hc, Place.inLine]
    · simp [hdc]
  · rcases update_cases hd with ⟨rfl, -⟩ | ⟨-, hd⟩
    · rfl
    · exact hi.holding d hd
  · have htaken := hi.taken
    have hrest := notEntered_update (f := s.place) (p := .holding) hnot
    simp only [notEntered, filter_cons, hc, holds_waiting] at htaken hrest
    simp only [enter, notEntered, filter_cons, update_self, holds_holding, hrest]
    simpa using htaken

end

omit [DecidableEq C] in
/-- The tickets have not gone round, so none was taken since the load. -/
theorem Inv.since_eq (hi : Inv s q) (hc : s.place c = .served s.lock.nextTicket)
    (htimely : s.taken.length < s.since c + 2 ^ 16) : s.taken.length = s.since c := by
  obtain ⟨hle, ht⟩ := hi.loaded c _ (.inr hc)
  rw [hi.next, ← BitVec.toNat_inj, BitVec.toNat_ofNat, BitVec.toNat_ofNat] at ht
  omega

theorem inv_exchange (hi : Inv s []) (hc : (s.place c).inLine = false) : Inv ((s.takeTicket c).enter c) [c] := by
  refine hi.getInLine hc (p := .holding) rfl nofun (fun _ => rfl) ?_
  simp [hi.taken, notEntered]

theorem inv_release (hi : Inv s q) (hc : s.place c = .holding) : Inv (lock_release s c) q.tail := by
  obtain ⟨q', rfl⟩ : ∃ q', q = c :: q' := head?_eq_some_iff.1 (hi.holding c hc)
  have hnot : c ∉ q' := (nodup_cons.1 hi.tickets.nodup).1
  have hpop : Tickets (s.lock.nowServing + 1) s.lock.nextTicket q' fun d t =>
      update s.place c .outside d = .waiting t :=
    (hi.tickets.pop (by rw [hc]; nofun)).mono fun d t hd => (of_update hd nofun).2
  refine ⟨hpop, fun d => ?_, fun d hd => ?_, ?_, hi.next, fun d t hd => hi.loaded d t (of_update_or hd nofun nofun).2,
    fun d t hd hn => nomatch hi.served d t (of_update hd nofun).2 hn⟩
  · have hmem := hi.mem d
    by_cases hdc : d = c
    · simp [lock_release, hdc, hnot, Place.inLine]
    · simpa [lock_release, hdc] using hmem
  · obtain ⟨hdc, hd⟩ := of_update hd nofun
    exact absurd (Option.some.inj (hi.holding d hd)).symm hdc
  · have htaken := hi.taken
    simp only [notEntered, filter_cons, hc, holds_holding] at htaken
    simp only [lock_release, goto, tail_cons, notEntered_update hnot]
    simpa [notEntered] using htaken

/-! ## Runs -/

section Runs
variable [Fintype C]

omit [DecidableEq C] in
theorem Inv.length_lt (hi : Inv s q) (hb : Bounded s) : q.length < 2 ^ 16 := by
  have := length_le_tally (p := Place.inLine) (f := s.place) hi.tickets.nodup fun c hc => (hi.mem c).1 hc
  have hb' : tally Place.inLine s.place ≤ 2 ^ 16 - 1 := hb
  omega

theorem inv_advance (hi : Inv s q) (hb : Bounded s) (ht : Timely s (.advance c)) (hs : advance s c = some s') :
    ∃ q', Inv s' q' := by
  have hlen := hi.length_lt hb
  unfold advance at hs
  cases hc : s.place c <;> simp only [hc, reduceCtorEq] at hs
  case waiting t =>
    split_ifs at hs with hserving
    · cases hs
      exact ⟨q, inv_enter hi hlen (hserving ▸ hc)⟩
    · cases hs
      exact ⟨q, hi⟩
  case loaded t =>
    split_ifs at hs with hserving
    · cases hs
      exact ⟨q, inv_served hi hlen hc hserving⟩
    · cases hs
      exact ⟨q, inv_fail hi (by rw [hc]; rfl)⟩
  case served t =>
    split_ifs at hs with hnext
    · cases hs
      have hc' : s.place c = .served s.lock.nextTicket := hnext ▸ hc
      obtain rfl := hi.served c _ hc' (hi.since_eq hc' (ht hc'))
      exact ⟨[c], inv_exchange hi (by rw [hc]; rfl)⟩
    · cases hs
      exact ⟨q, inv_fail hi (by rw [hc]; rfl)⟩

theorem inv_step {a : Action C} (hi : ∃ q, Inv s q) (ha : Bounded s ∧ Timely s a) (hs : step s a = some s') :
    ∃ q, Inv s' q := by
  obtain ⟨q, hi⟩ := hi
  cases a <;> simp only [step] at hs
  case acquire c =>
    split_ifs at hs with hc
    cases hs
    exact ⟨_, inv_acquire hi hc⟩
  case tryAcquire c =>
    split_ifs at hs with hc
    cases hs
    exact ⟨q, inv_tryAcquire hi hc⟩
  case advance c => exact inv_advance hi ha.1 ha.2 hs
  case release c =>
    split_ifs at hs with hc
    cases hs
    exact ⟨_, inv_release hi hc⟩

omit [Fintype C] in
theorem tryRight_of_inv {a : Action C} (hi : Inv s q) (ht : Timely s a) : TryRight s a := by
  cases a with
  | acquire | tryAcquire | release => trivial
  | advance c =>
    intro s' hs hwait
    simp only [step, advance] at hs
    cases hc : s.place c with
    | outside | holding =>
      rw [hc] at hs
      cases hs
    | waiting t => exact absurd hc (hwait t)
    | loaded t =>
      simp only [hc] at hs
      split_ifs at hs
      · cases hs
        exact ⟨by simp, by simp⟩
      · cases hs
        exact ⟨by simp, fun _ => rfl⟩
    | served t =>
      simp only [hc] at hs
      split_ifs at hs with hnext
      · cases hs
        have hc' : s.place c = .served s.lock.nextTicket := hnext ▸ hc
        obtain rfl := hi.served c _ hc' (hi.since_eq hc' (ht hc'))
        refine ⟨fun _ d => ?_, by simp⟩
        have := hi.mem d
        simpa using this
      · cases hs
        exact ⟨by simp, fun _ => rfl⟩

/-- Along every run of any number of CPUs in which the tickets do not go all the way
round between the load and the compare-exchange of a `lock_try_acquire`, the lock is
exclusive and served in order, and every `lock_try_acquire` does right. -/
theorem lock_exclusive (as : List (Action C))
    (has : Along step (fun s a => Bounded s ∧ Timely s a) (init : System C) as) :
    Always step Exclusive (init : System C) as ∧ Along step TryRight (init : System C) as := by
  constructor
  · refine (has.always (fun s a s' hi ha hs => inv_step hi ha hs) ⟨[], inv_init⟩).mono ?_
    rintro s ⟨q, hi⟩
    exact hi.exclusive
  · refine has.along (fun s a s' hi ha hs => inv_step hi ha hs) ?_ ⟨[], inv_init⟩
    rintro s a ⟨q, hi⟩ ha
    exact tryRight_of_inv hi ha.2

/-- While a CPU is in line, some CPU has the lock or enters with its next operation. -/
def GoesOn (s : System C) : Prop :=
  ∀ c, (s.place c).inLine = true → ∃ d, s.place d = .holding ∨ step s (.advance d) = some (s.enter d)

theorem lock_goes_on (as : List (Action C))
    (has : Along step (fun s a => Bounded s ∧ Timely s a) (init : System C) as) :
    Always step GoesOn (init : System C) as := by
  refine (has.always (fun s a s' hi ha hs => inv_step hi ha hs) ⟨[], inv_init⟩).mono ?_
  rintro s ⟨q, hi⟩ c hc
  obtain ⟨d, rest, rfl⟩ := exists_cons_of_ne_nil (ne_nil_of_mem ((hi.mem c).2 hc))
  have hd := (hi.mem d).1 mem_cons_self
  refine ⟨d, ?_⟩
  cases hp : s.place d with
  | holding => exact .inl rfl
  | waiting t =>
    -- The first of the queue has the ticket that is served.
    obtain ⟨i, hget, rfl⟩ := hi.tickets.index d t hp
    cases i with
    | zero => exact .inr (by simp [step, advance, hp])
    | succ i =>
      rw [getElem?_cons_succ] at hget
      exact absurd (mem_of_getElem? hget) (nodup_cons.1 hi.tickets.nodup).1
  | outside | loaded | served => simp [hp, Place.inLine] at hd

end Runs

/-- A CPU enters, another waits, and a third one tries in vain; then the second one
enters. -/
def handedOver : List (Action (Fin 3)) :=
  [.acquire 0, .advance 0, .acquire 1, .tryAcquire 2, .advance 2, .release 0, .advance 1]

theorem handedOver_exclusive : Always step Exclusive (init : System (Fin 3)) handedOver ∧
    Along step TryRight (init : System (Fin 3)) handedOver :=
  lock_exclusive handedOver (by decide +kernel)

theorem handedOver_goes_on : Always step GoesOn (init : System (Fin 3)) handedOver :=
  lock_goes_on handedOver (by decide +kernel)

/-! ## Once round -/

/-- The lock is taken and given back `n` times. -/
def rounds (c : C) : Nat → List (Action C)
  | 0 => []
  | n + 1 => .acquire c :: .advance c :: .release c :: rounds c n

theorem run_rounds (n : Nat) (hc : s.place c = .outside) (hfree : s.lock.nowServing = s.lock.nextTicket) :
    ∃ s', run step s (rounds c n) = some s' ∧ s'.place = s.place ∧
      s'.lock.nextTicket = s.lock.nextTicket + BitVec.ofNat 16 n ∧ s'.lock.nowServing = s'.lock.nextTicket := by
  induction n generalizing s with
  | zero => exact ⟨s, rfl, rfl, by simp, hfree⟩
  | succ n ih =>
    let s₁ := lock_release ((lock_acquire s c).enter c) c
    have hplace : s₁.place = s.place := by
      simp only [s₁, lock_release, enter, lock_acquire, takeTicket, goto, update_idem,
        ← hc, update_eq_self]
    have hround : run step s (rounds c (n + 1)) = run step s₁ (rounds c n) := by
      simp [rounds, run, step, hc, advance, lock_acquire, hfree, s₁, lock_release]
    have hnext : s₁.lock.nextTicket = s.lock.nextTicket + 1 := rfl
    have hserving : s₁.lock.nowServing = s.lock.nowServing + 1 := rfl
    obtain ⟨s', hr, hp, hn, hf⟩ := ih (s := s₁) (hplace ▸ hc) (by rw [hserving, hnext, hfree])
    exact ⟨s', hround.trans hr, hp.trans hplace, by rw [hn, hnext, add_ofNat_succ], hf⟩

/-- One CPU is about to exchange `nextTicket`, while another takes the lock `n` times
and then once more. -/
def overtaken (n : Nat) : List (Action Bool) :=
  [.tryAcquire true, .advance true] ++ (rounds false n ++ [.acquire false, .advance false, .advance true])

theorem overtaken_both {n : Nat} (hn : BitVec.ofNat 16 n = 65535#16) :
    ∃ s, run step (init : System Bool) (overtaken n) = some s ∧ s.place true = .holding ∧ s.place false = .holding := by
  let s₁ : System Bool := (lock_try_acquire init true).goto true (.served 0)
  have h₁ : run step (init : System Bool) [.tryAcquire true, .advance true] = some s₁ := by
    simp [run, step, advance, init, lock_init, lock_try_acquire, s₁]
  obtain ⟨s₂, h₂, hplace, hnext, hserving⟩ := run_rounds (s := s₁) (c := false) n rfl rfl
  have hlast : s₂.lock.nextTicket = 65535#16 := by
    have hzero : s₁.lock.nextTicket = 0#16 := rfl
    rw [hnext, hn, hzero, BitVec.zero_add]
  have htrue : s₂.place true = .served 0 := by rw [hplace]; rfl
  have hfalse : s₂.place false = .outside := by rw [hplace]; rfl
  have h₃ : ∃ s₃, run step s₂ [.acquire false, .advance false, .advance true] = some s₃ ∧
      s₃.place true = .holding ∧ s₃.place false = .holding := by
    simp [run, step, advance, lock_acquire, hfalse, htrue, hlast, hserving]
  obtain ⟨s₃, h₃, hboth⟩ := h₃
  exact ⟨s₃, by rw [overtaken, run_append h₁, run_append h₂, h₃], hboth⟩

/-- After `2 ^ 16` tickets the exchange succeeds, and both CPUs hold the lock. -/
theorem overtaken_not_exclusive : ¬ Always step Exclusive (init : System Bool) (overtaken 65535) := by
  intro hex
  obtain ⟨s, hrun, htrue, hfalse⟩ := overtaken_both (n := 65535) rfl
  exact absurd ((hex.last hrun).one true false htrue hfalse) (by decide)

end Patchwork.SpinLock
