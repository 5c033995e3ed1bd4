import Patchwork.Lib.Traced
/-!
# The EEVDF scheduler of one CPU (`kernel/sched/sched.c`)

Virtual times are signed 128-bit fixed-point numbers with 63 fractional bits.
The functions below compute them exactly, on `Int`, and record every
intermediate value (`Traced`); divisions truncate as in C. Threads are named by
the address of their scheduling context, and the runqueue, a red-black tree
ordered by `sched_node_compare`, is the list of its threads in order.

`sched_do` holds the scheduler's lock from its update of the virtual time to
the switch to the next thread. The system takes it in three steps
(`enterDo`, then `leave` if the running thread blocks or dies, then `switchTo`),
between which nothing else happens to this CPU's scheduler. Which thread is
next is left open: any thread of the runqueue may be.
-/

namespace Patchwork.Sched

open Lib

/-! ## Fixed point -/

def SCHED_FIXED_POINT : Nat := 63

def SCHED_EPSILON : Int := 10

def SCHED_FIXED_TO (x : Int) : Traced Int := .shl x SCHED_FIXED_POINT

/-- The shift floors; the cast to `int64_t` keeps the low 64 bits. -/
def SCHED_FIXED_FROM (x : Int) : Int := (x / 2 ^ SCHED_FIXED_POINT).bmod (2 ^ 64)

def sched_fixed_cmp (a b : Int) : Int :=
  let diff := SCHED_FIXED_FROM (a - b)
  if diff > SCHED_EPSILON then 1
  else if diff < -(SCHED_EPSILON + 1) then -1
  else 0

/-! ## The scheduler -/

def SCHED_WEIGHT_BASE : Int := 1

def PRIORITY_MAX : Nat := 63

/-- Ten milliseconds in nanoseconds. -/
def CONFIG_TIME_SLICE : Int := 1000000 * 10

/-- `stop` and `lastCpu` only choose the CPU a thread is put on. -/
structure sched_client_t where
  weight : Int := 2 ^ 32 - 1
  vdeadline : Int := 0
  veligible : Int := 0
  vminEligible : Int := 0
deriving Repr, DecidableEq

structure sched_t where
  totalWeight : Int := 0
  /-- The threads of the runqueue in order. -/
  runqueue : List Nat := []
  vtime : Int := 0
  lastUpdate : UInt64 := 0
  /-- `none` is the idle thread. -/
  runThread : Option Nat := none
  /-- The scheduling context of each thread. -/
  client : Nat → sched_client_t := fun _ => {}

/-- Contexts are compared by deadline, then by address. -/
def sched_node_compare (client : Nat → sched_client_t) (a b : Nat) : Int :=
  if (client a).vdeadline < (client b).vdeadline then -1
  else if (client a).vdeadline > (client b).vdeadline then 1
  else if a < b then -1
  else if a > b then 1
  else 0

/-- `rbtree_insert` into the runqueue. -/
def rbtree_insert (client : Nat → sched_client_t) (queue : List Nat) (t : Nat) : List Nat :=
  queue.orderedInsert (fun a b => sched_node_compare client a b ≤ 0) t

/-- `rbtree_fix` moves a thread whose deadline has changed to its place. -/
def rbtree_fix (client : Nat → sched_client_t) (queue : List Nat) (t : Nat) : List Nat :=
  if t ∈ queue then rbtree_insert client (queue.erase t) t else queue

def sched_client_update_veligible (client : sched_client_t) (newVeligible : Int) : Traced sched_client_t := do
  let slice ← SCHED_FIXED_TO CONFIG_TIME_SLICE
  let share ← .div slice client.weight
  let vdeadline ← .add newVeligible share
  return { client with veligible := newVeligible, vminEligible := newVeligible, vdeadline }

def sched_vtime_reset (sched : sched_t) (uptime : UInt64) : sched_t :=
  { sched with lastUpdate := uptime, vtime := 0 }

def sched_vtime_update (sched : sched_t) (uptime : UInt64) : Traced sched_t :=
  let delta : Int := (uptime - sched.lastUpdate).toNat
  match sched.runThread with
  | none => return sched_vtime_reset sched uptime
  | some running =>
    if sched.totalWeight = 0 then return sched_vtime_reset sched uptime
    else do
      let fixed ← SCHED_FIXED_TO delta
      let dv ← .div fixed sched.totalWeight
      let vtime ← .add sched.vtime dv
      let run := sched.client running
      let dr ← .div fixed run.weight
      let veligible ← .add run.veligible dr
      let run ← sched_client_update_veligible run veligible
      let client := Function.update sched.client running run
      return { sched with lastUpdate := uptime, vtime, client, runqueue := rbtree_fix client sched.runqueue running }

/-- Put thread `t` into the runqueue with the weight of its priority. -/
def sched_insert (sched : sched_t) (t : Nat) (priority : Nat) : Traced sched_t := do
  let weight := priority + SCHED_WEIGHT_BASE
  let c ← sched_client_update_veligible { sched.client t with weight } sched.vtime
  let client := Function.update sched.client t c
  return { sched with totalWeight := sched.totalWeight + weight, client
                      runqueue := rbtree_insert client sched.runqueue t }

def sched_enter (sched : sched_t) (t : Nat) (priority : Nat) (uptime : UInt64) : Traced sched_t := do
  let sched ← sched_vtime_update sched uptime
  sched_insert sched t priority

def sched_leave (sched : sched_t) (t : Nat) (uptime : UInt64) : Traced sched_t := do
  let client := sched.client t
  let diff ← .sub sched.vtime client.veligible
  let lag ← .mul diff client.weight
  let totalWeight := sched.totalWeight - client.weight
  let sched := { sched with totalWeight, runqueue := sched.runqueue.erase t }
  if totalWeight = 0 then return sched_vtime_reset sched uptime
  else do
    let dv ← .div lag totalWeight
    let vtime ← .add sched.vtime dv
    return { sched with vtime }

/-- `sched_start`, up to the jump to the boot thread. -/
def sched_start (sched : sched_t) (t : Nat) (priority : Nat) : Traced sched_t := do
  let sched ← sched_insert sched t priority
  return { sched with runThread := some t }

/-! ## The system -/

/-- The scheduler of a CPU. `now` is the last uptime it was called with;
`inDo` says that `sched_do` is between its update of the virtual time and the
switch. Ghost state: the operations since the runqueue was last empty, and the
largest total weight since then. -/
structure State where
  sched : sched_t := {}
  now : UInt64 := 0
  inDo : Bool := false
  ops : Nat := 0
  wmax : Int := 0

inductive Action where
  /-- `sched_start` of the boot thread. -/
  | start (t : Nat) (priority : Nat)
  /-- `sched_submit` of a thread to this CPU. -/
  | submit (t : Nat) (priority : Nat) (uptime : UInt64)
  /-- Another CPU's `sched_steal` takes a thread that is not running. -/
  | steal (t : Nat) (uptime : UInt64)
  /-- `sched_do` takes the lock and updates the virtual time. -/
  | enterDo (uptime : UInt64)
  /-- In `sched_do`, the running thread is dying or has blocked. -/
  | leave
  /-- In `sched_do` with an empty runqueue, `sched_first_eligible` puts a
  stolen thread into it. -/
  | pull (t : Nat) (priority : Nat) (uptime : UInt64)
  /-- `sched_do` switches to a thread of the runqueue or, if there is none, to
  the idle thread, and releases the lock. -/
  | switchTo (next : Option Nat)
deriving Repr, DecidableEq

/-- The state after an operation on the scheduler. -/
def State.after (s : State) (now : UInt64) (sched : sched_t) : State :=
  if sched.runqueue = [] then { s with sched, now, ops := 0, wmax := 0 }
  else { s with sched, now, ops := s.ops + 1, wmax := max s.wmax sched.totalWeight }

/-- One step, with the values it computes. -/
def exec (s : State) : Action → Option (Traced State)
  | .start t priority =>
    if s.sched.runThread = none ∧ s.sched.runqueue = [] ∧ s.inDo = false ∧ priority ≤ PRIORITY_MAX then
      some do return s.after s.now (← sched_start s.sched t priority)
    else none
  | .submit t priority uptime =>
    if s.inDo = false ∧ t ∉ s.sched.runqueue ∧ priority ≤ PRIORITY_MAX ∧ s.now ≤ uptime then
      some do return s.after uptime (← sched_enter s.sched t priority uptime)
    else none
  | .steal t uptime =>
    if s.inDo = false ∧ t ∈ s.sched.runqueue ∧ s.sched.runThread ≠ some t ∧ s.now ≤ uptime then
      some do return s.after uptime (← sched_leave s.sched t uptime)
    else none
  | .enterDo uptime =>
    if s.inDo = false ∧ ¬ (s.sched.runThread = none ∧ s.sched.runqueue = []) ∧ s.now ≤ uptime then
      some do return { s.after uptime (← sched_vtime_update s.sched uptime) with inDo := true }
    else none
  | .leave =>
    match s.sched.runThread with
    | some t =>
      if s.inDo = true ∧ t ∈ s.sched.runqueue then
        some do return s.after s.now (← sched_leave s.sched t s.now)
      else none
    | none => none
  | .pull t priority uptime =>
    if s.inDo = true ∧ s.sched.runqueue = [] ∧ priority ≤ PRIORITY_MAX ∧ s.now ≤ uptime then
      some do return s.after uptime (← sched_enter s.sched t priority uptime)
    else none
  | .switchTo next =>
    if s.inDo = true ∧ (∀ t ∈ next, t ∈ s.sched.runqueue) ∧ (next = none → s.sched.runqueue = []) then
      some (pure { s with sched := { s.sched with runThread := next }, inDo := false })
    else none

def step (s : State) (a : Action) : Option State := (exec s a).map (·.val)

/-- The state after `PERCPU_DEFINE_CTOR`. -/
def init : State := {}

end Patchwork.Sched
