import Patchwork.Lib.Runs
import Patchwork.Sched.WaitBlock
import Patchwork.Utils.LinkedList
/-!
# The waiting subsystem

`wait.c` as a transition system over any sets of threads `T`, wait queues `Q`,
CPUs `C`, memory for wait entries `E` and callers `A`. A thread is at one of the
places of `Place` while it blocks; a caller is any context that runs
`wait_unblock`, `wait_check_timeouts` or the end of `thread_send_note`.

A step is one atomic access to the state of a thread, or one section under a
lock that nobody else can look into: the enqueueing of `wait_block_prepare` under
the locks of its queues, the removal of one entry under the lock of its queue.
The scan of a queue and the sections under the lock of a CPU contain accesses to
the states of threads and are cut at each of them, with the lock held in between.

The queues are rings of links, as in the source: an entry that is freed while it
is linked stays in its ring, and the memory may be given out again. Which entry
`cache_alloc` returns, if any, is given with the step.

`waits` and `submits` of a thread and `scans` and `returned` are a record of what
happened; no step depends on them.
-/

namespace Patchwork.Wait

open Function Lib Utils

/-- The states of a thread that waiting knows. -/
inductive thread_state_t where
  | ACTIVE
  | PRE_BLOCK
  | BLOCKED
  | UNBLOCKING
deriving Repr, DecidableEq

inductive errno_t where
  | EOK
  | ETIMEDOUT
  | EINTR
  | other (code : Nat)
deriving Repr, DecidableEq

def WAIT_ALL : Nat := 2 ^ 64 - 1

def threadsPerBatch : Nat := 64

/-- The nodes of the queues: a queue's head or the `queueEntry` of a wait entry. -/
inductive Node (Q E : Type) where
  | head (q : Q)
  | entry (e : E)
deriving Repr, DecidableEq

structure wait_entry_t (T Q : Type) where
  thread : T
  queue : Q

/-- The wait entries, with the lists they are in. -/
structure Lists (T Q E : Type) where
  links : Links (Node Q E)
  entry : E → wait_entry_t T Q
  /-- `thread->wait.entries`. -/
  entries : T → List E
  allocated : E → Bool

/-- Where a thread is while it blocks. -/
inductive Place (C : Type) where
  /-- It runs other code, or it is ready to. -/
  | running
  /-- In `wait_block_prepare`, before the compare-exchange. -/
  | enqueued
  /-- Before `wait_block_commit` or `wait_block_cancel`. -/
  | prepared
  /-- `wait_block_commit` has seen `THREAD_PRE_BLOCK`. -/
  | committed
  /-- In `wait_block_finalize`, before the compare-exchange. -/
  | finalizing (c : C)
  /-- In `wait_block_finalize`, before the look for a pending note. -/
  | noting (c : C)
  /-- In its own `wait_remove_wait_entries`, with the lock of a CPU if it is finalizing. -/
  | removing (lock : Option C)
  /-- Back in `sched_do`, after `wait_block_finalize` returned `false`. -/
  | early
  /-- After `wait_block_finalize` returned `true`. -/
  | left
deriving Repr, DecidableEq

structure Thread (C : Type) where
  state : thread_state_t
  place : Place C
  err : errno_t
  deadline : Nat
  owner : Option C
  /-- The number of times it has begun to wait. -/
  waits : Nat
  /-- How often it was submitted since it last became blocked. -/
  submits : Nat

/-- A call of `wait_unblock`. -/
structure Call (T Q : Type) where
  queue : Q
  amount : Nat
  err : errno_t
  /-- For every scan, the threads that had an entry in the queue when it began,
  each with the number of its wait. -/
  scans : List (T → Option Nat)

/-- What a caller wakes threads for. -/
inductive Duty (T Q : Type) where
  | unblock (call : Call T Q)
  | note
  | timeouts

def Duty.err {T Q : Type} : Duty T Q → errno_t
  | .unblock call => call.err
  | .note => .EINTR
  | .timeouts => .ETIMEDOUT

/-- Where a caller is. -/
inductive Caller (T Q C E : Type) where
  | idle
  /-- Before a batch of `wait_unblock`. -/
  | batch (call : Call T Q)
  /-- At `elem` of the queue, whose lock it holds, with the threads collected so far. -/
  | scanning (call : Call T Q) (elem : Node Q E) (threads : List T)
  /-- Before the lock of the first thread's CPU. -/
  | unblocking (duty : Duty T Q) (threads : List T)
  /-- In `wait_remove_wait_entries` for a thread, with the lock of the CPU. -/
  | removing (duty : Duty T Q) (c : C) (t : T) (rest : List T)
  /-- Before `sched_submit`. -/
  | submitting (duty : Duty T Q) (c : C) (t : T) (rest : List T)
  /-- In the loop of `wait_check_timeouts`, with the lock of the CPU. -/
  | checking (c : C)

structure System (T Q C E A : Type) where
  lists : Lists T Q E
  thread : T → Thread C
  blockedThreads : C → List T
  /-- The scan that holds the lock of a queue. -/
  qlock : Q → Option A
  /-- Who holds the lock of a CPU's `wait_t`. -/
  wlock : C → Option (T ⊕ A)
  caller : A → Caller T Q C E
  /-- The calls of `wait_unblock` that have returned. -/
  returned : List (Call T Q)

variable {T Q C E A : Type} [DecidableEq T] [DecidableEq Q] [DecidableEq C] [DecidableEq E] [DecidableEq A]

/-- Empty queues, threads that run, and memory with any content. -/
def init (memory : E → wait_entry_t T Q) : System T Q C E A where
  lists := { links := ⟨id, id⟩, entry := memory, entries := fun _ => [], allocated := fun _ => false }
  thread _ :=
    { state := .ACTIVE, place := .running, err := .EOK, deadline := 0, owner := none, waits := 0, submits := 0 }
  blockedThreads _ := []
  qlock _ := none
  wlock _ := none
  caller _ := .idle
  returned := []

def System.setThread (s : System T Q C E A) (t : T) (f : Thread C → Thread C) : System T Q C E A :=
  { s with thread := update s.thread t (f (s.thread t)) }

def System.setCaller (s : System T Q C E A) (a : A) (p : Caller T Q C E) : System T Q C E A :=
  { s with caller := update s.caller a p }

/-- `list_remove(&thread->wait.entry)`. -/
def System.removeBlocked (s : System T Q C E A) (t : T) : System T Q C E A :=
  { s with blockedThreads := fun c => (s.blockedThreads c).filter (· ≠ t) }

def System.lockCpu (s : System T Q C E A) (c : C) (holder : Option (T ⊕ A)) : System T Q C E A :=
  { s with wlock := update s.wlock c holder }

/-! ## Wait entries -/

/-- A new entry is initialised and pushed to the lists of its thread and queue. -/
def Lists.push (l : Lists T Q E) (t : T) (q : Q) (e : E) : Lists T Q E where
  links := list_push_back (list_entry_init l.links (.entry e)) (.head q) (.entry e)
  entry := update l.entry e ⟨t, q⟩
  entries := update l.entries t (l.entries t ++ [e])
  allocated := update l.allocated e true

/-- An entry is removed from the lists of its queue and thread and freed. -/
def Lists.remove (l : Lists T Q E) (e : E) : Lists T Q E where
  links := list_remove l.links (.entry e)
  entry := l.entry
  entries := update l.entries (l.entry e).thread ((l.entries (l.entry e).thread).erase e)
  allocated := update l.allocated e false

/-- The entries of a thread are popped and freed. They stay in their queues. -/
def Lists.popAll (l : Lists T Q E) (t : T) : Lists T Q E :=
  { l with
    entries := update l.entries t []
    allocated := fun e => if e ∈ l.entries t then false else l.allocated e }

/-- The loop of `wait_block_prepare` that allocates the entries, and whether it
got to its end. The answers of `cache_alloc` are free entries or `NULL`. -/
def enqueueAll (l : Lists T Q E) (t : T) : List Q → List (Option E) → Option (Lists T Q E × Bool)
  | [], _ => some (l, true)
  | _ :: _, [] => none
  | _ :: _, none :: _ => some (l.popAll t, false)
  | q :: qs, some e :: answers => if l.allocated e then none else enqueueAll (l.push t q e) t qs answers

/-- A turn of `wait_remove_wait_entries`: it waits for the lock of the queue. -/
def removeFirst (s : System T Q C E A) (t : T) : Option (System T Q C E A) :=
  match s.lists.entries t with
  | [] => none
  | e :: _ =>
    if s.qlock (s.lists.entry e).queue = none then some { s with lists := s.lists.remove e } else none

/-! ## The thread that blocks -/

def wait_block_prepare (s : System T Q C E A) (t : T) (waitQueues : List Q) (answers : List (Option E))
    (timeout uptime : Nat) : Option (System T Q C E A) :=
  if waitQueues = [] then some s
  -- A queue that is given twice is locked twice, and the call does not return.
  else if waitQueues.Nodup ∧ ∀ q ∈ waitQueues, s.qlock q = none then
    (enqueueAll s.lists t waitQueues answers).map fun
      | (l, false) => { s with lists := l }
      | (l, true) =>
        ({ s with lists := l } : System T Q C E A).setThread t fun th =>
          { th with
            place := .enqueued, err := .EOK, deadline := CLOCKS_DEADLINE timeout uptime, owner := none,
            waits := th.waits + 1 }
  else none

/-- The compare-exchange of `wait_block_prepare`; other states panic. -/
def prepareExchange (s : System T Q C E A) (t : T) : Option (System T Q C E A) :=
  match (s.thread t).state with
  | .ACTIVE => some (s.setThread t fun th => { th with state := .PRE_BLOCK, place := .prepared })
  | .UNBLOCKING => some (s.setThread t fun th => { th with place := .prepared })
  | _ => none

def wait_block_cancel (s : System T Q C E A) (t : T) : System T Q C E A :=
  s.setThread t fun th => { th with state := .UNBLOCKING, err := .EOK, place := .removing none }

def wait_block_commit (s : System T Q C E A) (t : T) : Option (System T Q C E A) :=
  match (s.thread t).state with
  | .UNBLOCKING => some (s.setThread t fun th => { th with err := .EOK, place := .removing none })
  | .PRE_BLOCK => some (s.setThread t fun th => { th with place := .committed })
  | _ => none

/-- The list of a CPU is sorted by deadline. -/
def insertBlocked (deadline : T → Nat) (threads : List T) (t : T) : List T :=
  if deadline t = CLOCKS_NEVER ∨ ∀ last ∈ threads.getLast?, deadline last ≤ deadline t then threads ++ [t]
  else
    -- The thread goes before the first one with a later deadline.
    let before := threads.takeWhile fun other => deadline other ≤ deadline t
    let after := threads.dropWhile fun other => deadline other ≤ deadline t
    if after = [] then threads else before ++ t :: after

/-- The beginning of `wait_block_finalize`, up to the compare-exchange. -/
def wait_block_finalize (s : System T Q C E A) (t : T) (c : C) : Option (System T Q C E A) :=
  if s.wlock c = none then
    let s := s.setThread t fun th => { th with owner := some c, place := .finalizing c }
    let s := s.lockCpu c (some (.inl t))
    some { s with
      blockedThreads := update s.blockedThreads c
        (insertBlocked (fun u => (s.thread u).deadline) (s.blockedThreads c) t) }
  else none

def finalizeExchange (s : System T Q C E A) (t : T) (c : C) : System T Q C E A :=
  if (s.thread t).state = .PRE_BLOCK then
    s.setThread t fun th => { th with state := .BLOCKED, place := .noting c, submits := 0 }
  else (s.removeBlocked t).setThread t fun th => { th with err := .EOK, place := .removing (some c) }

/-- The end of `wait_block_finalize`, if a note is pending and if none is. -/
def finalizeNote (s : System T Q C E A) (t : T) (c : C) (pending : Bool) : System T Q C E A :=
  if pending ∧ (s.thread t).state = .BLOCKED then
    (s.removeBlocked t).setThread t fun th =>
      { th with state := .UNBLOCKING, err := .EINTR, place := .removing (some c) }
  else (s.setThread t fun th => { th with place := .left }).lockCpu c none

/-- The part of `sched_do` that blocks the running thread of CPU `c`. -/
def sched_do (s : System T Q C E A) (t : T) (c : C) : Option (System T Q C E A) :=
  match (s.thread t).state with
  | .PRE_BLOCK | .UNBLOCKING => wait_block_finalize s t c
  | .ACTIVE => some s
  | .BLOCKED => none

/-- After `wait_remove_wait_entries`: `atomic_store(&thread->state, THREAD_ACTIVE)`. -/
def removed (s : System T Q C E A) (t : T) : Option C → System T Q C E A
  | none => s.setThread t fun th => { th with state := .ACTIVE, place := .running }
  | some c => (s.setThread t fun th => { th with state := .ACTIVE, place := .early }).lockCpu c none

/-- The next step of a thread inside one of the functions above. -/
def advance (s : System T Q C E A) (t : T) (pending : Bool) : Option (System T Q C E A) :=
  match (s.thread t).place with
  | .enqueued => prepareExchange s t
  | .finalizing c => some (finalizeExchange s t c)
  | .noting c => some (finalizeNote s t c pending)
  | .removing lock => if s.lists.entries t = [] then some (removed s t lock) else removeFirst s t
  | .early => some (s.setThread t fun th => { th with state := .ACTIVE, place := .running })
  | .running | .prepared | .committed | .left => none

/-! ## The callers that wake threads -/

def sched_submit (s : System T Q C E A) (t : T) : System T Q C E A :=
  s.setThread t fun th => { th with state := .ACTIVE, place := .running, submits := th.submits + 1 }

/-- The threads that have an entry in the queue, with the numbers of their waits. -/
def present (s : System T Q C E A) (q : Q) (t : T) : Option Nat :=
  if ∃ e ∈ s.lists.entries t, (s.lists.entry e).queue = q then some (s.thread t).waits else none

/-- The end of a scan: the lock is released, and a scan that found no blocked
thread is the last one. -/
def endScan (s : System T Q C E A) (a : A) (call : Call T Q) (threads : List T) : System T Q C E A :=
  let s : System T Q C E A := { s with qlock := update s.qlock call.queue none }
  if threads = [] then ({ s with returned := call :: s.returned } : System T Q C E A).setCaller a .idle
  else s.setCaller a (.unblocking (.unblock call) threads)

/-- A turn of the scan at an entry. -/
def scanEntry (s : System T Q C E A) (a : A) (call : Call T Q) (e : E) (threads : List T) :
    System T Q C E A :=
  let t := (s.lists.entry e).thread
  let temp := s.lists.links.next (.entry e)
  let s' := s.setThread t fun th => { th with state := .UNBLOCKING }
  if (s.thread t).state = .BLOCKED then
    ({ s' with lists := s.lists.remove e } : System T Q C E A).setCaller a
      (.scanning call temp (threads ++ [t]))
  else s'.setCaller a (.scanning call temp threads)

/-- The head of another queue is no entry: the scan has left the list. -/
def wait_unblock_scan (s : System T Q C E A) (a : A) (call : Call T Q) (elem : Node Q E) (threads : List T) :
    Option (System T Q C E A) :=
  match elem with
  | .head q => if q = call.queue then some (endScan s a call threads) else none
  | .entry e =>
    if threads.length = min call.amount threadsPerBatch then some (endScan s a call threads)
    else some (scanEntry s a call e threads)

/-- The loop of `wait_check_timeouts`. -/
def checkTimeouts (s : System T Q C E A) (a : A) (c : C) (uptime : Nat) : System T Q C E A :=
  match s.blockedThreads c with
  | [] => (s.lockCpu c none).setCaller a .idle
  | t :: _ =>
    if (s.thread t).deadline > uptime then (s.lockCpu c none).setCaller a .idle
    else if (s.thread t).state = .BLOCKED then
      ((s.removeBlocked t).setThread t fun th => { th with state := .UNBLOCKING, err := .ETIMEDOUT }).setCaller a
        (.removing .timeouts c t [])
    else s.removeBlocked t

/-- The lock of the thread's CPU is taken and the thread removed from its list. -/
def lockOwner (s : System T Q C E A) (a : A) (duty : Duty T Q) (t : T) (rest : List T) :
    Option (System T Q C E A) :=
  match (s.thread t).owner with
  | none => none
  | some c =>
    if s.wlock c = none then
      some ((((s.lockCpu c (some (.inr a))).removeBlocked t).setThread t
        fun th => { th with err := duty.err }).setCaller a (.removing duty c t rest))
    else none

/-- The next step of a caller. -/
def proceed (s : System T Q C E A) (a : A) (uptime : Nat) : Option (System T Q C E A) :=
  match s.caller a with
  | .idle => none
  | .batch call =>
    if s.qlock call.queue = none then
      some (({ s with qlock := update s.qlock call.queue (some a) } : System T Q C E A).setCaller a
        (.scanning { call with scans := present s call.queue :: call.scans }
          (s.lists.links.next (.head call.queue)) []))
    else none
  | .scanning call elem threads => wait_unblock_scan s a call elem threads
  | .unblocking duty (t :: rest) => lockOwner s a duty t rest
  | .unblocking (.unblock call) [] => some (s.setCaller a (.batch call))
  | .unblocking _ [] => some (s.setCaller a .idle)
  | .removing duty c t rest =>
    if s.lists.entries t = [] then
      match duty with
      | .timeouts => some (s.setCaller a (.submitting .timeouts c t rest))
      | _ => some ((s.lockCpu c none).setCaller a (.submitting duty c t rest))
    else removeFirst s t
  | .submitting duty c t rest =>
    match duty with
    | .timeouts => some ((sched_submit s t).setCaller a (.checking c))
    | _ => some ((sched_submit s t).setCaller a (.unblocking duty rest))
  | .checking c => some (checkTimeouts s a c uptime)

/-! ## The system -/

inductive Action (T Q C E A : Type) where
  | prepare (t : T) (waitQueues : List Q) (answers : List (Option E)) (timeout uptime : Nat)
  | commit (t : T)
  | cancel (t : T)
  /-- The scheduler runs on the CPU of the thread. -/
  | sched (t : T) (c : C)
  | advance (t : T) (pending : Bool)
  /-- `wait_unblock` is called. -/
  | unblock (a : A) (q : Q) (amount : Nat) (err : errno_t)
  /-- The compare-exchange of `thread_send_note`, after which it calls `wait_unblock_thread`. -/
  | note (a : A) (t : T)
  /-- `wait_check_timeouts` takes the lock of its CPU. -/
  | timeouts (a : A) (c : C)
  | proceed (a : A) (uptime : Nat)

def Caller.isIdle : Caller T Q C E → Bool
  | .idle => true
  | _ => false

def step (s : System T Q C E A) : Action T Q C E A → Option (System T Q C E A)
  | .prepare t waitQueues answers timeout uptime =>
    if (s.thread t).place = .running then wait_block_prepare s t waitQueues answers timeout uptime else none
  | .commit t => if (s.thread t).place = .prepared then wait_block_commit s t else none
  | .cancel t => if (s.thread t).place = .prepared then some (wait_block_cancel s t) else none
  | .sched t c =>
    if (s.thread t).place = .running ∨ (s.thread t).place = .committed then sched_do s t c else none
  | .advance t pending => Wait.advance s t pending
  | .unblock a q amount err =>
    if (s.caller a).isIdle then
      some (s.setCaller a (.batch { queue := q, amount := amount, err := err, scans := [] }))
    else none
  | .note a t =>
    if (s.caller a).isIdle then
      if (s.thread t).state = .BLOCKED then
        some ((s.setThread t fun th => { th with state := .UNBLOCKING }).setCaller a (.unblocking .note [t]))
      else some s
    else none
  | .timeouts a c =>
    if (s.caller a).isIdle ∧ s.wlock c = none then
      some ((s.lockCpu c (some (.inr a))).setCaller a (.checking c))
    else none
  | .proceed a uptime => Wait.proceed s a uptime

end Patchwork.Wait
