import Patchwork.Utils.Bitmap
import Patchwork.Lib.Runs
/-!
# Read-copy-update (`kernel/sync/rcu.c`)

The global state is the grace period counter, whether a grace period is active
and the bitmap of CPUs that have not acknowledged it; each CPU has three lists
of callbacks and the number of the grace period its `waiting` list is attached
to. `rcu_read_lock` and `rcu_read_unlock` are `sched_disable` and
`sched_enable`, so a CPU is inside a read-side section while its preemption
count is positive, and the scheduler does not report for it then.

`rcu_report_quiescent` is not atomic: between two critical sections of one CPU
the others run. Its position is the CPU's `Phase`, and one step of the system
takes one CPU to its next phase: a critical section under `lock`, one callback
of the `ready` list, or one unlocked read of the globals. The loop of
`rcu_start_grace` is a step for each CPU: `sched_is_idle` looks at each under
that CPU's own lock, and the CPUs switch threads without `lock`.

Ghost state: every outermost read-side section has a serial number, a queued
callback records the sections that were open at its `rcu_call`, and the log of
invoked callbacks records which of those sections were open still. The loop of
`rcu_start_grace` records whether it has found a CPU that was not idle.
-/

namespace Patchwork.Rcu

def CPU_MAX : Nat := 255

/-- A machine with `cpus` CPUs, whose ids are `0 .. cpus - 1`. -/
structure Machine where
  cpus : Nat
  le_max : cpus ≤ CPU_MAX

/-- An entry, by its address, with the callback and its argument. -/
structure rcu_entry_t where
  entry : Nat
  func : Nat
  arg : Nat
deriving Repr, DecidableEq

/-- A queued entry, with the serial number of the read-side section each CPU
was in at its `rcu_call`. -/
structure Queued where
  entry : rcu_entry_t
  inside : Nat → Option Nat

structure rcu_t where
  grace : Nat := 0
  batch : List Queued := []
  waiting : List Queued := []
  ready : List Queued := []

/-- Where a CPU is in `rcu_report_quiescent`. -/
inductive Phase where
  | outside
  /-- `rcu_check_quiescent` has returned `wake`. -/
  | checked (wake : Bool)
  /-- The first `rcu_invoke_callbacks` has returned. -/
  | invoked (wake : Bool)
  /-- `rcu_advance` has moved the batch and has read `active`, not yet `grace`. -/
  | attaching (active : Bool)
  | advanced
  /-- The second `rcu_invoke_callbacks` has returned. -/
  | drained
  /-- In the loop of `rcu_start_grace`, which looks at CPU `next` now. -/
  | starting (next : Nat) (found : Bool)
deriving Repr, DecidableEq

structure Cpu where
  rcu : rcu_t := {}
  /-- `sched_is_idle`: the CPU runs its idle thread, as every CPU does first. -/
  idle : Bool := true
  /-- `preemptCount`. -/
  preempt : Nat := 0
  /-- The serial number of the last outermost read-side section. -/
  serial : Nat := 0
  phase : Phase := .outside

/-- A callback that was run, and the CPUs that were still in the read-side
section they were in at its `rcu_call`. -/
structure Invocation where
  entry : rcu_entry_t
  blockers : List Nat

structure State where
  ack : bitmap_t := BITMAP_CREATE_ZERO CPU_MAX
  grace : Nat := 0
  active : Bool := false
  /-- The CPU that holds `lock` from one step to the next. -/
  lock : Option Nat := none
  cpu : Nat → Cpu := fun _ => {}
  log : List Invocation := []

def State.setCpu (s : State) (c : Nat) (v : Cpu) : State :=
  { s with cpu := Function.update s.cpu c v }

/-- CPU `k` is still in the read-side section it was in at the `rcu_call` of `e`. -/
def Blocks (s : State) (e : Queued) (k : Nat) : Prop :=
  0 < (s.cpu k).preempt ∧ e.inside k = some (s.cpu k).serial

instance (s : State) (e : Queued) (k : Nat) : Decidable (Blocks s e k) :=
  inferInstanceAs (Decidable (_ ∧ _))

/-- The sections open on the machine, as `rcu_call` records them. -/
def State.sections (m : Machine) (s : State) (k : Nat) : Option Nat :=
  if k < m.cpus ∧ 0 < (s.cpu k).preempt then some (s.cpu k).serial else none

/-! ## The functions of `rcu.c` -/

def rcu_read_lock (s : State) (c : Nat) : State :=
  let v := s.cpu c
  s.setCpu c { v with preempt := v.preempt + 1, serial := if v.preempt = 0 then v.serial + 1 else v.serial }

def rcu_read_unlock (s : State) (c : Nat) : State :=
  let v := s.cpu c
  s.setCpu c { v with preempt := v.preempt - 1 }

/-- `entry` and `func` are pointers, `none` is `NULL`. -/
def rcu_call (m : Machine) (s : State) (c : Nat) (entry func : Option Nat) (arg : Nat) : State :=
  match entry, func with
  | some entry, some func =>
    let v := s.cpu c
    let e : Queued := { entry := { entry, func, arg }, inside := s.sections m }
    s.setCpu c { v with rcu := { v.rcu with batch := v.rcu.batch ++ [e] } }
  | _, _ => s

def rcu_check_quiescent (s : State) (c : Nat) : State × Bool :=
  let s :=
    if s.active && bitmap_is_set s.ack c then
      let ack := bitmap_clear s.ack c
      { s with ack, active := if bitmap_is_empty ack then false else s.active }
    else s
  let rcu := (s.cpu c).rcu
  (s, !rcu.waiting.isEmpty && (decide (s.grace > rcu.grace) || (s.grace == rcu.grace && !s.active)))

/-- One round of the loop of `rcu_invoke_callbacks`; `next` is where the CPU
is when the loop ends. -/
def rcu_invoke_callbacks (m : Machine) (s : State) (c : Nat) (next : Phase) : State :=
  let v := s.cpu c
  match v.rcu.ready with
  | [] => s.setCpu c { v with phase := next }
  | e :: ready =>
    let i : Invocation := { entry := e.entry, blockers := (List.range m.cpus).filter (Blocks s e ·) }
    { s.setCpu c { v with rcu := { v.rcu with ready } } with log := i :: s.log }

/-- `rcu_advance` up to the read of `active` in its last statement. The value
it stores under the lock is overwritten by that statement. -/
def rcu_advance (s : State) (c : Nat) (wake : Bool) : State :=
  let v := s.cpu c
  let rcu := if wake then { v.rcu with ready := v.rcu.waiting, waiting := v.rcu.ready } else v.rcu
  if rcu.waiting.isEmpty && !rcu.batch.isEmpty then
    let rcu := { rcu with waiting := rcu.batch, batch := rcu.waiting, grace := (s.grace + 1) % 2 ^ 64 }
    s.setCpu c { v with rcu, phase := .attaching s.active }
  else s.setCpu c { v with rcu, phase := .advanced }

/-- The rest of `rcu_advance`: `grace` is read after `active`, without the lock. -/
def rcu_advance_grace (s : State) (c : Nat) (active : Bool) : State :=
  let v := s.cpu c
  s.setCpu c { v with
    rcu := { v.rcu with grace := if active then s.grace else (s.grace + 1) % 2 ^ 64 }
    phase := .advanced }

def State.setPhase (s : State) (c : Nat) (p : Phase) : State :=
  s.setCpu c { s.cpu c with phase := p }

/-- `rcu_start_grace` up to its loop. -/
def rcu_start_grace (m : Machine) (s : State) (c : Nat) : State :=
  if (s.cpu c).rcu.waiting.isEmpty then s.setPhase c .outside
  else if s.active then s.setPhase c .outside
  else
    State.setPhase { s with
      active := true
      grace := (s.grace + 1) % 2 ^ 64
      ack := bitmap_set_range s.ack 0 m.cpus
      lock := some c } c (.starting 0 false)

/-- One round of the loop of `rcu_start_grace`. -/
def rcu_start_grace_loop (m : Machine) (s : State) (c next : Nat) (found : Bool) : State :=
  let idle := (s.cpu next).idle
  let ack := if idle then bitmap_clear s.ack next else s.ack
  if next + 1 < m.cpus then State.setPhase { s with ack } c (.starting (next + 1) (found || !idle))
  else State.setPhase { s with ack, lock := none } c .outside

/-- `rcu_report_quiescent` from one phase to the next. -/
def rcu_report_quiescent (m : Machine) (s : State) (c : Nat) : State :=
  match (s.cpu c).phase with
  | .outside =>
    let r := rcu_check_quiescent s c
    r.1.setPhase c (.checked r.2)
  | .checked wake => rcu_invoke_callbacks m s c (.invoked wake)
  | .invoked wake => rcu_advance s c wake
  | .attaching active => rcu_advance_grace s c active
  | .advanced => rcu_invoke_callbacks m s c .drained
  | .drained => rcu_start_grace m s c
  | .starting next found => rcu_start_grace_loop m s c next found

/-- The next step of the CPU acquires `lock`, and another one holds it. `rcu_advance` only
holds it for a value that is overwritten. -/
def State.Waits (s : State) (c : Nat) : Prop :=
  s.lock.isSome ∧ ((s.cpu c).phase = .outside ∨
    (s.cpu c).phase = .drained ∧ (s.cpu c).rcu.waiting.isEmpty = false)

instance (s : State) (c : Nat) : Decidable (s.Waits c) := inferInstanceAs (Decidable (_ ∧ _))

/-! ## The system -/

inductive Action where
  | readLock (c : Nat)
  | readUnlock (c : Nat)
  | call (c : Nat) (entry func : Option Nat) (arg : Nat)
  | report (c : Nat)
  /-- The scheduler switches CPU `c` to its idle thread, or away from it. -/
  | setIdle (c : Nat) (idle : Bool)
deriving Repr, DecidableEq

/-- One step. The idle thread opens no read-side section, and a CPU inside one
neither reports nor goes idle. -/
def step (m : Machine) (s : State) : Action → Option State
  | .readLock c => if c < m.cpus ∧ (s.cpu c).idle = false then some (rcu_read_lock s c) else none
  | .readUnlock c => if c < m.cpus ∧ 0 < (s.cpu c).preempt then some (rcu_read_unlock s c) else none
  | .call c entry func arg => if c < m.cpus then some (rcu_call m s c entry func arg) else none
  | .report c =>
    if c < m.cpus ∧ (s.cpu c).preempt = 0 ∧ ¬ s.Waits c then some (rcu_report_quiescent m s c) else none
  | .setIdle c idle =>
    if c < m.cpus ∧ (s.cpu c).preempt = 0 ∧ (s.cpu c).phase = .outside then
      some (s.setCpu c { s.cpu c with idle })
    else none

/-- The state after boot. -/
def init : State := {}

end Patchwork.Rcu
