import Patchwork.Lib.Runs
import Patchwork.Sched.WaitBlock
/-!
# The kernel mutex

`mutex.c` as a transition system over any set of threads `T`. A thread inside
`mutex_acquire_timeout` is at one of the places of `Pc`. One step is one section
under `mtx->lock`, from a `lock_acquire` to the next `lock_release`; the code that
runs without the lock (the test for a recursive acquire and the increment of the
depth) takes a step for every access to the mutex.

The rest of the kernel is the `World` of a step: the clock, the results of
`wait_block_prepare` and the result with which `wait_block_commit` returns. A
blocked thread may return from `wait_block_commit` at any time, so the wake-ups
that come from `mutex_release`, from a timeout or from a note are all covered.

`held` counts for every thread the acquires that returned `true` less its
releases. The code has no such counter: it says what the mutex is for.
-/

namespace Patchwork.Mutex

open Function Patchwork.Wait

variable {T : Type} [DecidableEq T]

def CONFIG_MUTEX_MAX_SLOW_SPIN : Nat := 1000

structure mutex_t (T : Type) where
  owner : Option T
  depth : Nat

/-- Where a thread is in `mutex_acquire_timeout`. -/
inductive Pc where
  | idle
  /-- Before the test `mtx->owner == self`. -/
  | entered (timeout : Nat)
  /-- Before the load of `mtx->depth++`, and before its store. -/
  | deepen (timeout : Nat)
  | deepened (timeout depth : Nat)
  | spin (timeout spin : Nat)
  /-- Before the first `WAIT_BLOCK_LOCK`, and in its `wait_block_commit`. -/
  | never
  | neverBlocked
  /-- Before the section of the timed wait, and in its `wait_block_commit`. -/
  | timed (timeout : Nat)
  | timedBlocked (timeout deadline : Nat)
  | returned (timeout : Nat) (acquired : Bool)
deriving Repr, DecidableEq

/-- The thread may call into the mutex. -/
def Pc.outside : Pc → Bool
  | .idle | .returned _ _ => true
  | _ => false

/-- What the rest of the kernel answers during a step. -/
structure World where
  /-- Results of `wait_block_prepare`, one for each evaluation of a macro. -/
  prepares : List result_t
  commit : result_t
  /-- The readings of `clock_uptime`: for `end`, for `now` and in the macro. -/
  start : Nat
  now : Nat
  uptime : Nat

structure System (T : Type) where
  mtx : mutex_t T
  pc : T → Pc
  held : T → Nat

def mutex_init : mutex_t T := { owner := none, depth := 0 }

def init : System T := { mtx := mutex_init, pc := fun _ => .idle, held := fun _ => 0 }

def System.goto (s : System T) (t : T) (pc : Pc) : System T :=
  { s with pc := update s.pc t pc }

/-- The call returns `true`, with the mutex in the state `mtx`. -/
def System.acquired (s : System T) (t : T) (timeout : Nat) (mtx : mutex_t T) : System T :=
  { mtx := mtx
    pc := update s.pc t (.returned timeout true)
    held := update s.held t (s.held t + 1) }

/-- `mtx->owner = self`, `mtx->depth = 1` and the return. -/
def System.take (s : System T) (t : T) (timeout : Nat) : System T :=
  s.acquired t timeout { owner := some t, depth := 1 }

/-- The loop around `WAIT_BLOCK_LOCK`, up to its end or the next `lock_release`. -/
def waitNever (condition : Bool) : result_t → List result_t → Option Turn
  | _, [] => none
  | result, prepare :: rest =>
    match WAIT_BLOCK_LOCK condition result prepare with
    | .done .ERR => waitNever condition .zero rest
    | turn => some turn

def neverSection (s : System T) (t : T) (result : result_t) (w : World) : Option (System T) :=
  (waitNever s.mtx.owner.isNone result w.prepares).map fun
    | .done _ => s.take t CLOCKS_NEVER
    | .block => s.goto t .neverBlocked

def timedSection (s : System T) (t : T) (timeout : Nat) (result : result_t) (deadline : Nat) (w : World) :
    System T :=
  match WAIT_BLOCK_LOCK_TIMEOUT s.mtx.owner.isNone result deadline w.uptime
    (fun _ => w.prepares.headD .ERR) with
  | .done .ERR => s.goto t (.returned timeout false)
  | .done .zero => s.take t timeout
  | .block => s.goto t (.timedBlocked timeout deadline)

/-- The next step of a thread inside `mutex_acquire_timeout`. -/
def mutex_acquire_timeout (s : System T) (t : T) (w : World) : Option (System T) :=
  match s.pc t with
  | .idle | .returned _ _ => none
  | .entered timeout =>
    if s.mtx.owner = some t then some (s.goto t (.deepen timeout)) else some (s.goto t (.spin timeout 0))
  | .deepen timeout => some (s.goto t (.deepened timeout s.mtx.depth))
  | .deepened timeout depth => some (s.acquired t timeout { s.mtx with depth := (depth + 1) % 2 ^ 32 })
  | .spin timeout spin =>
    if spin < CONFIG_MUTEX_MAX_SLOW_SPIN then
      if s.mtx.owner = none then some (s.take t timeout) else some (s.goto t (.spin timeout (spin + 1)))
    else if timeout = 0 then some (s.goto t (.returned timeout false))
    else if timeout = CLOCKS_NEVER then some (s.goto t .never)
    else some (s.goto t (.timed timeout))
  | .never => neverSection s t .zero w
  | .neverBlocked => neverSection s t w.commit w
  | .timed timeout =>
    let stop := (w.start + timeout) % 2 ^ 64
    if w.now ≥ stop then some (s.goto t (.returned timeout false))
    else some (timedSection s t timeout .zero (CLOCKS_DEADLINE (stop - w.now) w.uptime) w)
  | .timedBlocked timeout deadline => some (timedSection s t timeout w.commit deadline w)

/-- A release by a thread that is not the owner fails its assertion. The threads
that `wait_unblock` wakes go on with a step of their own. -/
def mutex_release (s : System T) (t : T) : Option (System T) :=
  if s.mtx.owner = some t then
    let depth := (s.mtx.depth + 2 ^ 32 - 1) % 2 ^ 32
    some
      { mtx := { owner := if depth = 0 then none else some t, depth := depth }
        pc := update s.pc t .idle
        held := update s.held t (s.held t - 1) }
  else none

inductive Action (T : Type) where
  /-- `mutex_acquire_timeout` is called; `mutex_acquire` calls it with `CLOCKS_NEVER`. -/
  | acquire (t : T) (timeout : Nat)
  | advance (t : T) (w : World)
  | release (t : T)

def step (s : System T) : Action T → Option (System T)
  | .acquire t timeout => if (s.pc t).outside then some (s.goto t (.entered timeout)) else none
  | .advance t w => mutex_acquire_timeout s t w
  | .release t => if (s.pc t).outside then mutex_release s t else none

/-- The loop around `WAIT_BLOCK_LOCK` is left only when its condition holds. -/
theorem waitNever_cases {condition : Bool} {result : result_t} {prepares : List result_t} {turn : Turn}
    (h : waitNever condition result prepares = some turn) :
    turn = .block ∨ turn = .done .zero ∧ condition = true := by
  induction prepares generalizing result with
  | nil => cases h
  | cons prepare rest ih =>
    unfold waitNever at h
    split at h
    · exact ih h
    · rename_i other hne
      rw [← Option.some.inj h]
      cases hw : WAIT_BLOCK_LOCK condition result prepare with
      | block => exact .inl rfl
      | done r =>
        cases r with
        | ERR => exact absurd hw hne
        | zero => exact .inr ⟨rfl, condition_of_done hw⟩

theorem waitNever_block {condition : Bool} {result : result_t} {prepares : List result_t}
    (h : waitNever condition result prepares = some .block) : condition = false := by
  induction prepares generalizing result with
  | nil => cases h
  | cons prepare rest ih =>
    unfold waitNever at h
    split at h
    · exact ih h
    · have hw := Option.some.inj h
      cases condition with
      | false => rfl
      | true => cases hw

end Patchwork.Mutex
