import Patchwork.Lib.Runs
import Patchwork.Lib.Agents
/-!
# Connections of local sockets

`connect`, `accept` and the closing of local sockets, with the reference counts of
connections and listeners. Any number of CPUs works for any number of sockets. The calls
are cut at every atomic operation and at every locked section; what a CPU has still to do
is a list of tasks, since dropping the last reference to an object frees it, which can drop
the last reference to another one.

`local_socket_connect` enters the connection into the backlog of the listener without a
reference for the backlog. So its only reference is that of the client, and closing the
client leaves a freed connection in the backlog.

Calls for one socket do not overlap with each other or with its closing (`socket->mutex`
and the references of open files).
-/

namespace Patchwork.Local

open Function Lib

/-- What is counted. -/
inductive Obj (C L : Type) where
  | conn (c : C)
  | listen (l : L)
deriving DecidableEq

structure Ref where
  /-- It has been allocated. -/
  used : Bool
  count : Nat
  /-- How often it was freed. -/
  freed : Nat
deriving DecidableEq

structure Sock (C L : Type) where
  listen : Option L
  conn : Option C
  closed : Bool
deriving DecidableEq

/-- Tasks of a CPU. The first four stand for the rest of a call of `local_socket_connect`
or `local_socket_accept`, with the references it holds. -/
inductive Task (S C L : Type) where
  | connNew (sock : S) (l : L)
  | connPush (sock : S) (l : L) (c : C)
  | acceptPop (l : L) (newSock : S)
  | acceptStore (newSock : S) (l : L) (c : C)
  | unref (o : Obj C L)
  /-- `local_conn_free` and `local_listen_free`, and the call of `free` at their end. -/
  | free (o : Obj C L)
  | listenSweep (l : L)
  | release (o : Obj C L)
  /-- `local_socket_deinit`. -/
  | closeListen (sock : S)
  | closeConn (sock : S)
deriving DecidableEq

structure System (S C L K : Type) where
  sock : S → Sock C L
  ref : Obj C L → Ref
  /-- `conn->listen`, as long as the connection holds the reference. -/
  inner : C → Option L
  backlog : L → List C
  pendingAmount : L → Nat
  maxBacklog : L → Nat
  isClosed : L → Bool
  /-- In the map `listeners`. -/
  registered : L → Bool
  tasks : K → List (Task S C L)

inductive Action (S C L K : Type) where
  | bind (sock : S) (l : L)
  | listen (sock : S) (backlog : Nat)
  /-- A call starts on a CPU that has nothing to do. -/
  | connect (k : K) (sock : S) (l : L)
  | accept (k : K) (sock newSock : S)
  | close (k : K) (sock : S)
  /-- The first task of the CPU. A call of `malloc` in it fails. -/
  | go (k : K)
  /-- `local_conn_new` succeeds. -/
  | alloc (k : K) (c : C)

def LOCAL_MAX_BACKLOG : Nat := 128

variable {S C L K : Type} [DecidableEq S] [DecidableEq C] [DecidableEq L] [DecidableEq K] [Fintype S] [Fintype C]
  [Fintype K]

def init : System S C L K :=
  { sock := fun _ => { listen := none, conn := none, closed := false }
    ref := fun _ => { used := false, count := 0, freed := 0 }
    inner := fun _ => none, backlog := fun _ => [], pendingAmount := fun _ => 0, maxBacklog := fun _ => 0
    isClosed := fun _ => true, registered := fun _ => false, tasks := fun _ => [] }

/-! ## Steps -/

namespace System

variable (s : System S C L K)

def setTasks (k : K) (tasks : List (Task S C L)) : System S C L K :=
  { s with tasks := update s.tasks k tasks }

/-- `REF`. -/
def inc (o : Obj C L) : System S C L K :=
  { s with ref := update s.ref o { s.ref o with count := (s.ref o).count + 1 } }

/-- The atomic operation of `UNREF`. -/
def dec (o : Obj C L) : System S C L K :=
  { s with ref := update s.ref o { s.ref o with count := (s.ref o).count - 1 } }

def setConn (sock : S) (conn : Option C) : System S C L K :=
  { s with sock := update s.sock sock { s.sock sock with conn := conn } }

end System

/-- The locked section of `local_socket_connect`. -/
def connPush (s : System S C L K) (sock : S) (l : L) (c : C) : System S C L K :=
  if s.isClosed l = true ∨ s.maxBacklog l ≤ s.pendingAmount l then s
  else
    { (s.inc (.conn c)).setConn sock (some c) with
      pendingAmount := update s.pendingAmount l (s.pendingAmount l + 1)
      backlog := update s.backlog l (s.backlog l ++ [c]) }

/-- The locked section of `local_socket_accept`: the connection, if there is one. -/
def acceptPop (s : System S C L K) (l : L) : Option (C × System S C L K) :=
  if s.isClosed l = true then none
  else
    match s.backlog l with
    | [] => none
    | c :: rest =>
      some (c,
        { s.inc (.conn c) with
          backlog := update s.backlog l rest
          pendingAmount := update s.pendingAmount l (s.pendingAmount l - 1) })

/-- The first task, with the ones that follow. -/
def perform (s : System S C L K) (k : K) (rest : List (Task S C L)) : Task S C L → System S C L K
  | .connNew _ l => s.setTasks k (.unref (.listen l) :: rest)
  | .connPush sock l c => (connPush s sock l c).setTasks k (.unref (.conn c) :: .unref (.listen l) :: rest)
  | .acceptPop l newSock =>
    match acceptPop s l with
    | none => s.setTasks k (.unref (.listen l) :: rest)
    | some (c, s) => s.setTasks k (.acceptStore newSock l c :: rest)
  | .acceptStore newSock l c =>
    ((s.inc (.conn c)).setConn newSock (some c)).setTasks k (.unref (.conn c) :: .unref (.listen l) :: rest)
  | .unref o => (s.dec o).setTasks k (if 1 < (s.ref o).count then rest else .free o :: rest)
  | .free (.conn c) =>
    match s.inner c with
    | none => s.setTasks k (.release (.conn c) :: rest)
    | some l =>
      { s with inner := update s.inner c none }.setTasks k
        (.unref (.listen l) :: .release (.conn c) :: rest)
  | .free (.listen l) =>
    { s with registered := update s.registered l false }.setTasks k (.listenSweep l :: rest)
  | .listenSweep l =>
    match s.backlog l with
    | [] => s.setTasks k (.release (.listen l) :: rest)
    | c :: backlog =>
      { s with backlog := update s.backlog l backlog }.setTasks k
        (.unref (.conn c) :: .listenSweep l :: rest)
  | .release o => { s with ref := update s.ref o { s.ref o with freed := (s.ref o).freed + 1 } }.setTasks k rest
  | .closeListen sock =>
    match (s.sock sock).listen with
    | none => s.setTasks k rest
    | some l =>
      { s with
        isClosed := update s.isClosed l true
        sock := update s.sock sock { s.sock sock with listen := none } }.setTasks k
          (.unref (.listen l) :: rest)
  | .closeConn sock =>
    match (s.sock sock).conn with
    | none => s.setTasks k rest
    | some c => (s.setConn sock none).setTasks k (.unref (.conn c) :: rest)

/-- The socket a task is for. -/
def Task.sock : Task S C L → Option S
  | .connNew sock _ | .connPush sock _ _ | .acceptPop _ sock | .acceptStore sock _ _ | .closeListen sock
  | .closeConn sock => some sock
  | .unref _ | .free _ | .listenSweep _ | .release _ => none

/-- No call for the socket is under way, and it is not closed. -/
def Idle (s : System S C L K) (sock : S) : Prop :=
  (s.sock sock).closed = false ∧ ∀ k, ∀ task ∈ s.tasks k, task.sock ≠ some sock

instance (s : System S C L K) (sock : S) : Decidable (Idle s sock) := inferInstanceAs (Decidable (_ ∧ _))

def step (s : System S C L K) : Action S C L K → Option (System S C L K)
  | .bind sock l =>
    if Idle s sock ∧ (s.sock sock).listen = none ∧ (s.ref (.listen l)).used = false then
      some { s with
        sock := update s.sock sock { s.sock sock with listen := some l }
        ref := update s.ref (.listen l) { used := true, count := 1, freed := 0 }
        backlog := update s.backlog l []
        pendingAmount := update s.pendingAmount l 0
        maxBacklog := update s.maxBacklog l LOCAL_MAX_BACKLOG
        isClosed := update s.isClosed l false
        registered := update s.registered l true }
    else none
  | .listen sock backlog =>
    match (s.sock sock).listen with
    | none => none
    | some l =>
      if Idle s sock then
        some { s with
          maxBacklog := if backlog < LOCAL_MAX_BACKLOG then update s.maxBacklog l backlog else s.maxBacklog
          isClosed := update s.isClosed l false }
      else none
  | .connect k sock l =>
    if s.tasks k = [] ∧ Idle s sock ∧ (s.sock sock).conn = none ∧ s.registered l = true then
      some ((s.inc (.listen l)).setTasks k [.connNew sock l])
    else none
  | .accept k sock newSock =>
    match (s.sock sock).listen with
    | none => none
    | some l =>
      if s.tasks k = [] ∧ Idle s newSock ∧ (s.sock newSock).conn = none then
        some ((s.inc (.listen l)).setTasks k [.acceptPop l newSock])
      else none
  | .close k sock =>
    if s.tasks k = [] ∧ Idle s sock then
      some ({ s with sock := update s.sock sock { s.sock sock with closed := true } }.setTasks k
        [.closeListen sock, .closeConn sock])
    else none
  | .go k =>
    match s.tasks k with
    | [] => none
    | task :: rest => some (perform s k rest task)
  | .alloc k c =>
    match s.tasks k with
    | .connNew sock l :: rest =>
      if (s.ref (.conn c)).used = false then
        some ({ s.inc (.listen l) with
          ref := update (s.inc (.listen l)).ref (.conn c) { used := true, count := 1, freed := 0 }
          inner := update s.inner c (some l) }.setTasks k (.connPush sock l c :: rest))
      else none
    | _ => none

/-! ## What should hold -/

/-- The references that a task holds. -/
def Task.refs (o : Obj C L) : Task S C L → Nat
  | .connNew _ l | .acceptPop l _ => if o = .listen l then 1 else 0
  | .connPush _ l c | .acceptStore _ l c => (if o = .conn c then 1 else 0) + if o = .listen l then 1 else 0
  | .unref o' => if o = o' then 1 else 0
  | .free _ | .listenSweep _ | .release _ | .closeListen _ | .closeConn _ => 0

/-- A task that is about the connection. -/
def Task.about (c : C) : Task S C L → Bool
  | .connPush _ _ c' | .acceptStore _ _ c' | .unref (.conn c') | .free (.conn c') | .release (.conn c') => c = c'
  | _ => false

/-- Everything but whose reference keeps a pending connection alive. -/
structure Sound (s : System S C L K) : Prop where
  /-- There is no dangling entry for `accept` or `local_listen_free`. -/
  alive : ∀ l, ∀ c ∈ s.backlog l, (s.ref (.conn c)).freed = 0 ∧ 0 < (s.ref (.conn c)).count
  pending : ∀ l, s.pendingAmount l = (s.backlog l).length
  once : ∀ c, (s.ref (.conn c)).freed ≤ 1
  /-- What is freed, no socket and no backlog refers to. -/
  unreferenced : ∀ c, 0 < (s.ref (.conn c)).freed →
    (∀ sock, (s.sock sock).conn ≠ some c) ∧ ∀ l, c ∉ s.backlog l
  /-- What no socket, no backlog and no call refers to, is freed. -/
  collected : ∀ c, (s.ref (.conn c)).used = true → (∀ sock, (s.sock sock).conn ≠ some c) → (∀ l, c ∉ s.backlog l) →
    (∀ k, ∀ task ∈ s.tasks k, task.about c = false) → (s.ref (.conn c)).freed = 1

variable [Fintype L]

/-- All of it: the backlogs have a reference to each of their connections. -/
structure Right (s : System S C L K) : Prop extends Sound s where
  owned : ∀ c, (s.ref (.conn c)).count = weigh (fun sock : Sock C L => if sock.conn = some c then 1 else 0) s.sock +
    weigh (load (Task.refs (.conn c))) s.tasks + weigh (fun backlog : List C => backlog.count c) s.backlog

/-- No connection gets into a backlog. -/
def Unpushed (s : System S C L K) : Action S C L K → Prop
  | .go k => ∀ sock l c rest, s.tasks k = .connPush sock l c :: rest →
    s.isClosed l = true ∨ s.maxBacklog l ≤ s.pendingAmount l
  | _ => True

/-- No socket is closed while its connection is pending. -/
def Patient (s : System S C L K) : Action S C L K → Prop
  | .go k => ∀ sock c rest, s.tasks k = .closeConn sock :: rest → (s.sock sock).conn = some c → ∀ l, c ∉ s.backlog l
  | _ => True

end Patchwork.Local
