import Patchwork.Lib.Agents
import Patchwork.Lib.Runs
/-!
# The I/O ring

`ring.c`: one ring with its submission queue, its pool of IRPs and the indices in the
memory it shares with the process. The process may write any values there at any time. A
step of the kernel is one call of `ioring_ctx_sqe_pop` in `ioring_ctx_notify`, one turn of
the loop that dispatches, `ioring_ctx_complete` with any outcome up to its `irp_complete`,
or that. A linked operation that ends at once is completed in between, inside the call for
the one it is linked to. The pool hands out the index that came back last, as `pool.c` does
when nobody else is at it.

An IRP goes back to the pool when its completion is posted and not when it is reaped, so
the pool does not keep the completion queue from overflowing.

Registers and arguments of an entry have no part in this, and are left out.
-/

namespace Patchwork.Ring

open List Option Function Lib

variable {n : Nat} {D : Type}

def EOK : Nat := 0
def POOL_IDX_MAX : Nat := 65535

structure sqe_t (D : Type) where
  op : Nat
  data : D
  /-- `SQE_LINK`. -/
  link : Bool
  /-- `SQE_HARDLINK`. -/
  hardlink : Bool
deriving Repr, DecidableEq

structure cqe_t (D : Type) where
  op : Nat
  error : Nat
  data : D
  result : Nat
deriving Repr, DecidableEq

/-- The indices of the shared `ioring_ctrl_t`. -/
structure ioring_ctrl_t where
  shead : BitVec 32
  stail : BitVec 32
  ctail : BitVec 32
  chead : BitVec 32
deriving Repr, DecidableEq

/-- What becomes of an IRP. The completion of one that is `completed` is posted. One that
was cancelled is completed, but it is not returned to the pool. -/
inductive Status where
  | free
  | popped
  | dispatched
  | completed
  | leaked
deriving Repr, DecidableEq

/-- Its completion is still to be posted. -/
def Status.owes : Status → Bool
  | .popped | .dispatched => true
  | .free | .completed | .leaked => false

/-- `next` is `none` for `POOL_IDX_MAX`. Entries are numbered as they are consumed, and
`id` is the number of the IRP's entry. -/
structure irp_t (n : Nat) (D : Type) where
  sqe : sqe_t D
  next : Option (Fin n)
  status : Status
  id : Nat

/-- The variables of a running `ioring_ctx_notify`. -/
structure Notify (n : Nat) where
  irps : List (Fin n)
  link : Option (Fin n)
  left : Nat
  popping : Bool

inductive Panic where
  | overflow
  | assertion
deriving Repr, DecidableEq

/-- An entry that was consumed, with the number of the entry it is linked to. -/
structure Consumed (D : Type) where
  sqe : sqe_t D
  pred : Option Nat

/-- `consumed`, `posted` and `dispatched` are logs; a posted completion has the number of
its entry. -/
structure System (n : Nat) (D : Type) where
  ctrl : ioring_ctrl_t
  squeue : Nat → sqe_t D
  free : List (Fin n)
  irp : Fin n → irp_t n D
  notify : Option (Notify n)
  panic : Option Panic
  consumed : List (Consumed D)
  posted : List (Nat × cqe_t D)
  dispatched : List Nat

def init (n : Nat) (memory : sqe_t D) : System n D where
  ctrl := { shead := 0, stail := 0, ctail := 0, chead := 0 }
  squeue _ := memory
  free := List.finRange n
  irp _ := { sqe := memory, next := none, status := .free, id := 0 }
  notify := none
  panic := none
  consumed := []
  posted := []
  dispatched := []

/-! ## IRPs -/

def System.setStatus (s : System n D) (i : Fin n) (status : Status) : System n D :=
  { s with irp := update s.irp i { s.irp i with status := status } }

def System.setNext (s : System n D) (i : Fin n) (next : Option (Fin n)) : System n D :=
  { s with irp := update s.irp i { s.irp i with next := next } }

/-- `pool_free` at the end of `irp_perform_completion`. -/
def System.giveBack (s : System n D) (i : Fin n) : System n D :=
  { s.setStatus i .free with free := i :: s.free }

def irp_chain_next (s : System n D) (i : Fin n) : Option (Fin n × System n D) :=
  (s.irp i).next.map fun j => (j, (s.setNext i (s.irp j).next).setNext j none)

/-- `irp_set_complete` and `irp_call_direct(irp, ioring_ctx_dispatch)`. -/
def System.dispatch (s : System n D) (i : Fin n) : System n D :=
  { s.setStatus i .dispatched with dispatched := s.dispatched ++ [(s.irp i).id] }

/-! ## Submission -/

/-- An IRP for an entry. -/
def System.consume (s : System n D) (i : Fin n) (rest : List (Fin n)) (sqe : sqe_t D) (pred : Option Nat) :
    System n D :=
  { s with
    ctrl := { s.ctrl with shead := s.ctrl.shead + 1 }
    free := rest
    irp := update s.irp i { sqe := sqe, next := none, status := .popped, id := s.consumed.length }
    consumed := s.consumed ++ [⟨sqe, pred⟩] }

def ioring_ctx_sqe_pop (sentries : Nat) (s : System n D) (notify : Notify n) : Option (System n D × Notify n) :=
  if s.ctrl.shead = s.ctrl.stail then none
  else
    match s.free with
    | [] => none
    | i :: rest =>
      let sqe := s.squeue (s.ctrl.shead &&& BitVec.ofNat 32 (sentries - 1)).toNat
      let link := if sqe.link || sqe.hardlink then some i else none
      match notify.link with
      | some l =>
        some ((s.consume i rest sqe (some (s.irp l).id)).setNext l (some i), { notify with link := link })
      | none => some (s.consume i rest sqe none, { notify with irps := notify.irps ++ [i], link := link })

/-- The next turn of one of the loops of `ioring_ctx_notify`. -/
def turn (sentries : Nat) (s : System n D) (notify : Notify n) : System n D :=
  if notify.popping then
    if notify.left = 0 then { s with notify := some { notify with popping := false } }
    else
      match ioring_ctx_sqe_pop sentries s notify with
      | none => { s with notify := some { notify with popping := false } }
      | some (s, notify) => { s with notify := some { notify with left := notify.left - 1 } }
  else
    match notify.irps with
    | [] => { s with notify := none }
    | i :: rest => { s.dispatch i with notify := some { notify with irps := rest } }

/-! ## Completion -/

/-- `irp_complete(next)` for every IRP of the chain. The chain is no longer than the
pool. -/
def completeChain : (fuel : Nat) → System n D → Fin n → Option (System n D)
  | 0, s, i => if (s.irp i).next = none then some s else none
  | fuel + 1, s, i =>
    match irp_chain_next s i with
    | none => some s
    | some (j, s) => completeChain fuel (s.giveBack j) i

def unreaped (ctrl : ioring_ctrl_t) : Nat := (ctrl.ctail - ctrl.chead).toNat

/-- The completion goes into the queue. -/
def System.post (s : System n D) (i : Fin n) (error result : Nat) : System n D :=
  { s with
    ctrl := { s.ctrl with ctail := s.ctrl.ctail + 1 }
    posted := s.posted ++
      [((s.irp i).id, { op := (s.irp i).sqe.op, error := error, data := (s.irp i).sqe.data, result := result })] }

/-- What is done with the IRPs that are linked to this one. -/
def followChain (s : System n D) (i : Fin n) (error : Nat) : Option (System n D) :=
  if error ≠ EOK ∧ (s.irp i).sqe.hardlink = false then completeChain n s i
  else
    match irp_chain_next s i with
    | none => some s
    | some (j, s) => some (s.dispatch j)

/-- `ioring_ctx_complete` up to the `irp_complete(irp)` at its end. -/
def ioring_ctx_complete (s : System n D) (i : Fin n) (error result : Nat) : Option (System n D) :=
  if unreaped s.ctrl ≥ n then some { s with panic := some .overflow }
  else followChain ((s.post i error result).setStatus i .completed) i error

/-- The `irp_complete(irp)` at the end. If the IRP was cancelled it does nothing. -/
def finish (s : System n D) (i : Fin n) (cancelled : Bool) : System n D :=
  if cancelled then s.setStatus i .leaked
  else if (s.irp i).next = none then s.giveBack i
  else { s with panic := some .assertion }

/-! ## Runs -/

inductive Action (n : Nat) (D : Type) where
  /-- The process writes the shared indices. -/
  | write (ctrl : ioring_ctrl_t)
  /-- The process writes an entry of the submission queue. -/
  | push (slot : Nat) (sqe : sqe_t D)
  /-- `SYS_ENTER`. -/
  | enter (amount : Nat)
  | turn
  /-- An operation ends. -/
  | complete (i : Fin n) (error result : Nat)
  | finish (i : Fin n) (cancelled : Bool)

def act (sentries : Nat) (s : System n D) : Action n D → Option (System n D)
  | .write ctrl => some { s with ctrl := ctrl }
  | .push slot sqe => some { s with squeue := update s.squeue slot sqe }
  | .enter amount =>
    if amount = 0 ∨ s.notify.isSome then some s
    else some { s with notify := some { irps := [], link := none, left := amount, popping := true } }
  | .turn => s.notify.map (turn sentries s)
  | .complete i error result =>
    if (s.irp i).status = .dispatched then ioring_ctx_complete s i error result else none
  | .finish i cancelled => if (s.irp i).status = .completed then some (Ring.finish s i cancelled) else none

/-- Nothing happens after a panic. -/
def step (sentries : Nat) (s : System n D) (a : Action n D) : Option (System n D) :=
  if s.panic.isSome then none else act sentries s a

/-! ## Chains -/

/-- The IRPs that are still to be dispatched by the running `ioring_ctx_notify`. -/
def System.heads (s : System n D) : List (Fin n) :=
  match s.notify with
  | some notify => notify.irps
  | none => []

/-- Each IRP of a chain but the first has one before it, and waits for that. -/
structure Chains (s : System n D) : Prop where
  heads : s.heads.Nodup
  popped : ∀ i ∈ s.heads, (s.irp i).status = .popped
  first : ∀ i ∈ s.heads, ∀ j, (s.irp j).next ≠ some i
  waits : ∀ j i, (s.irp j).next = some i → (s.irp i).status = .popped
  one : ∀ j k i, (s.irp j).next = some i → (s.irp k).next = some i → j = k
  free : s.free.Nodup
  unused : ∀ i ∈ s.free, (s.irp i).status = .free

variable {sentries : Nat} {s s' : System n D} {i j : Fin n}

theorem chains_init (memory : sqe_t D) : Chains (init n memory) :=
  ⟨nodup_nil, nofun, nofun, nofun, nofun, nodup_finRange n, fun _ _ => rfl⟩

section Fields
variable (s i)

@[simp]
theorem irp_setStatus_self (status : Status) : (s.setStatus i status).irp i = { s.irp i with status := status } :=
  update_self ..

theorem irp_setStatus_of_ne (status : Status) (h : j ≠ i) : (s.setStatus i status).irp j = s.irp j :=
  update_of_ne h ..

@[simp]
theorem next_setStatus (status : Status) (j : Fin n) : ((s.setStatus i status).irp j).next = (s.irp j).next :=
  update_map_eq irp_t.next (by rfl) j

@[simp]
theorem irp_setNext_self (next : Option (Fin n)) : (s.setNext i next).irp i = { s.irp i with next := next } :=
  update_self ..

theorem irp_setNext_of_ne (next : Option (Fin n)) (h : j ≠ i) : (s.setNext i next).irp j = s.irp j :=
  update_of_ne h ..

@[simp]
theorem status_setNext (next : Option (Fin n)) (j : Fin n) : ((s.setNext i next).irp j).status = (s.irp j).status :=
  update_map_eq irp_t.status (by rfl) j

end Fields

/-- An IRP that is in use and does not wait is in no chain but as its first. -/
theorem Chains.out (hc : Chains s) (hpopped : (s.irp i).status ≠ .popped) (hfree : (s.irp i).status ≠ .free) :
    i ∉ s.heads ∧ (∀ j, (s.irp j).next ≠ some i) ∧ i ∉ s.free :=
  ⟨fun h => hpopped (hc.popped i h), fun j h => hpopped (hc.waits j i h), fun h => hfree (hc.unused i h)⟩

/-- An IRP that is in no chain but as its first goes on. -/
theorem Chains.setStatus (hc : Chains s) (status : Status) (hhead : i ∉ s.heads)
    (hlast : ∀ j, (s.irp j).next ≠ some i) (hfree : i ∉ s.free) : Chains (s.setStatus i status) := by
  have hstatus : ∀ j, j ≠ i → ((s.setStatus i status).irp j).status = (s.irp j).status :=
    fun j hj => by rw [irp_setStatus_of_ne s i status hj]
  refine { hc with
    popped := fun j hj => (hstatus j fun he => hhead (he ▸ hj)).trans (hc.popped j hj)
    first := fun j hj k => by rw [next_setStatus]; exact hc.first j hj k
    waits := fun j k hjk => ?_
    one := fun j k l => by simp only [next_setStatus]; exact hc.one j k l
    unused := fun j hj => (hstatus j fun he => hfree (he ▸ hj)).trans (hc.unused j hj) }
  rw [next_setStatus] at hjk
  exact (hstatus k fun he => hlast j (he ▸ hjk)).trans (hc.waits j k hjk)

theorem Chains.giveBack (hc : Chains s) (hhead : i ∉ s.heads) (hlast : ∀ j, (s.irp j).next ≠ some i)
    (hused : (s.irp i).status ≠ .free) : Chains (s.giveBack i) := by
  have hfree : i ∉ s.free := fun h => hused (hc.unused i h)
  have hset := hc.setStatus .free hhead hlast hfree
  refine { hset with free := nodup_cons.2 ⟨hfree, hc.free⟩, unused := fun j hj => ?_ }
  rcases mem_cons.1 hj with rfl | hj
  · simp [System.giveBack]
  · exact hset.unused j hj

/-- The next IRP of a chain is taken out of it. -/
theorem chains_next (hc : Chains s) (hi : (s.irp i).status = .completed) (hs : irp_chain_next s i = some (j, s')) :
    Chains s' ∧ (s.irp i).next = some j ∧ i ≠ j ∧ (s'.irp j).status = .popped ∧ j ∉ s'.heads ∧
      (∀ k, (s'.irp k).next ≠ some j) ∧ ∀ k, (s'.irp k).status = (s.irp k).status := by
  obtain ⟨j, hnext, he⟩ := map_eq_some_iff.1 hs
  obtain ⟨rfl, rfl⟩ := Prod.mk.inj he
  have hpopped := hc.waits i j hnext
  have hij : i ≠ j := by
    rintro rfl
    rw [hi] at hpopped
    cases hpopped
  have hhead : j ∉ s.heads := fun h => hc.first j h i hnext
  -- Who has a next one now had it before, or `j` had it.
  have hbefore : ∀ k l, (((s.setNext i (s.irp j).next).setNext j none).irp k).next = some l →
      k ≠ j ∧ (s.irp (if k = i then j else k)).next = some l := by
    intro k l hkl
    have hkj : k ≠ j := by
      rintro rfl
      simp at hkl
    rw [irp_setNext_of_ne _ _ _ hkj] at hkl
    refine ⟨hkj, ?_⟩
    split_ifs with hki
    · subst hki
      simpa using hkl
    · rwa [irp_setNext_of_ne _ _ _ hki] at hkl
  have hstatus : ∀ k, (((s.setNext i (s.irp j).next).setNext j none).irp k).status = (s.irp k).status := by simp
  refine ⟨{ hc with popped := ?_, first := ?_, waits := ?_, one := ?_, unused := ?_ }, hnext, hij,
    (hstatus j).trans hpopped, hhead, ?_, hstatus⟩
  · intro k hk
    exact (hstatus k).trans (hc.popped k hk)
  · intro k hk l hl
    exact hc.first k hk _ (hbefore l k hl).2
  · intro k l hkl
    rw [hstatus]
    exact hc.waits _ _ (hbefore k l hkl).2
  · intro k l m hk hl
    obtain ⟨hkj, hk'⟩ := hbefore k m hk
    obtain ⟨hlj, hl'⟩ := hbefore l m hl
    have hsame := hc.one _ _ _ hk' hl'
    split_ifs at hsame with hki hli hli
    · rw [hki, hli]
    · exact absurd hsame.symm hlj
    · exact absurd hsame hkj
    · exact hsame
  · intro k hk
    exact (hstatus k).trans (hc.unused k hk)
  · intro k hk
    have hsame := hc.one _ _ _ (hbefore k j hk).2 hnext
    split_ifs at hsame with hki
    · exact hij hsame.symm
    · exact hki hsame

/-! ## The steps keep the chains -/

/-- The number of IRPs whose completion is still to be posted. -/
def owed (s : System n D) : Nat := tally (fun irp : irp_t n D => irp.status.owes) s.irp

theorem owed_setStatus (s : System n D) (i : Fin n) (status : Status) :
    owed (s.setStatus i status) + ((s.irp i).status.owes).toNat = owed s + status.owes.toNat :=
  tally_update _ s.irp i { s.irp i with status := status }

theorem owed_setNext (s : System n D) (i : Fin n) (next : Option (Fin n)) : owed (s.setNext i next) = owed s :=
  tally_stay _ _ rfl rfl

theorem owed_giveBack (s : System n D) (i : Fin n) : owed (s.giveBack i) = owed (s.setStatus i .free) := rfl

theorem owed_next (hs : irp_chain_next s i = some (j, s')) : owed s' = owed s := by
  obtain ⟨j, -, he⟩ := map_eq_some_iff.1 hs
  obtain ⟨rfl, rfl⟩ := Prod.mk.inj he
  rw [owed_setNext, owed_setNext]

/-- What a part of `ioring_ctx_complete` that follows the chain of an IRP keeps. -/
structure Followed (s s' : System n D) (i : Fin n) : Prop where
  chains : Chains s'
  status : (s'.irp i).status = .completed
  owed : owed s' ≤ owed s
  ctrl : s'.ctrl = s.ctrl
  panic : s'.panic = s.panic

theorem completeChain_followed {fuel : Nat} (hc : Chains s) (hi : (s.irp i).status = .completed)
    (hs : completeChain fuel s i = some s') : Followed s s' i := by
  induction fuel generalizing s with
  | zero =>
    simp only [completeChain] at hs
    split_ifs at hs
    cases hs
    exact ⟨hc, hi, le_rfl, rfl, rfl⟩
  | succ fuel ih =>
    unfold completeChain at hs
    split at hs
    · cases hs
      exact ⟨hc, hi, le_rfl, rfl, rfl⟩
    · rename_i j s₁ hnext
      obtain ⟨hc₁, -, hij, hpopped, hhead, hlast, hstatus⟩ := chains_next hc hi hnext
      have hused : (s₁.irp j).status ≠ .free := by
        rw [hpopped]
        nofun
      have hi₁ : ((s₁.giveBack j).irp i).status = .completed := by
        rw [System.giveBack, irp_setStatus_of_ne s₁ j .free hij, hstatus, hi]
      have hf := ih (hc₁.giveBack hhead hlast hused) hi₁ hs
      have howed := owed_setStatus s₁ j .free
      have hsame := owed_next hnext
      obtain ⟨k, -, he⟩ := map_eq_some_iff.1 hnext
      obtain ⟨-, rfl⟩ := Prod.mk.inj he
      refine { hf with owed := hf.owed.trans ?_, ctrl := hf.ctrl, panic := hf.panic }
      rw [owed_giveBack, ← hsame]
      simp only [Status.owes, Bool.toNat_false] at howed
      omega

theorem followChain_followed {error : Nat} (hc : Chains s) (hi : (s.irp i).status = .completed)
    (hs : followChain s i error = some s') : Followed s s' i := by
  unfold followChain at hs
  split_ifs at hs
  · exact completeChain_followed hc hi hs
  · split at hs
    · cases hs
      exact ⟨hc, hi, le_rfl, rfl, rfl⟩
    · rename_i j s₁ hnext
      obtain ⟨hc₁, -, hij, hpopped, hhead, hlast, hstatus⟩ := chains_next hc hi hnext
      have hfree : j ∉ s₁.free := by
        intro h
        have := hc₁.unused j h
        rw [hpopped] at this
        cases this
      have hset := hc₁.setStatus .dispatched hhead hlast hfree
      have howed := owed_setStatus s₁ j .dispatched
      have hsame := owed_next hnext
      obtain ⟨k, -, he⟩ := map_eq_some_iff.1 hnext
      obtain ⟨-, rfl⟩ := Prod.mk.inj he
      cases hs
      refine ⟨{ hset with }, ?_, ?_, rfl, rfl⟩
      · rw [System.dispatch, irp_setStatus_of_ne _ j .dispatched hij, hstatus, hi]
      · rw [hpopped] at howed
        exact (Nat.add_right_cancel howed).le.trans hsame.le

theorem Chains.renotify (hc : Chains s) {notify : Option (Notify n)}
    (hnodup : { s with notify := notify }.heads.Nodup)
    (hmem : ∀ i ∈ { s with notify := notify }.heads,
      i ∈ s.heads ∨ (s.irp i).status = .popped ∧ ∀ j, (s.irp j).next ≠ some i) : Chains { s with notify := notify } :=
  { hc with
    heads := hnodup
    popped := fun i hi => (hmem i hi).elim (hc.popped i) And.left
    first := fun i hi => (hmem i hi).elim (hc.first i) And.right }

theorem irp_consume_self (s : System n D) (i : Fin n) (rest : List (Fin n)) (sqe : sqe_t D) (pred : Option Nat) :
    (s.consume i rest sqe pred).irp i = ⟨sqe, none, .popped, s.consumed.length⟩ := update_self ..

theorem irp_consume_of_ne (s : System n D) (rest : List (Fin n)) (sqe : sqe_t D) (pred : Option Nat) (h : j ≠ i) :
    (s.consume i rest sqe pred).irp j = s.irp j := update_of_ne h ..

/-- An IRP from the pool is nobody's next one. -/
theorem chains_consume {rest : List (Fin n)} (hc : Chains s) (hfree : s.free = i :: rest) (sqe : sqe_t D)
    (pred : Option Nat) :
    Chains (s.consume i rest sqe pred) ∧ i ∉ s.heads ∧ ((s.consume i rest sqe pred).irp i).status = .popped ∧
      (∀ j, ((s.consume i rest sqe pred).irp j).next ≠ some i) ∧ owed (s.consume i rest sqe pred) = owed s + 1 := by
  have hunused : (s.irp i).status = .free := hc.unused i (by simp [hfree])
  have hnodup : i ∉ rest ∧ rest.Nodup := nodup_cons.1 (hfree ▸ hc.free)
  have hself := irp_consume_self s i rest sqe pred
  have hne := fun j => irp_consume_of_ne (i := i) (j := j) s rest sqe pred
  have hold : ∀ j k, ((s.consume i rest sqe pred).irp j).next = some k → (s.irp j).next = some k ∧ k ≠ i := by
    intro j k hjk
    have hji : j ≠ i := by
      rintro rfl
      rw [hself] at hjk
      cases hjk
    rw [hne j hji] at hjk
    refine ⟨hjk, ?_⟩
    rintro rfl
    rw [hc.waits j k hjk] at hunused
    cases hunused
  have hhead : i ∉ s.heads := by
    intro h
    rw [hc.popped i h] at hunused
    cases hunused
  refine ⟨⟨hc.heads, fun j hj => ?_, fun j hj k hk => hc.first j hj k (hold k j hk).1, fun j k hjk => ?_,
    fun j k l hj hk => hc.one j k l (hold j l hj).1 (hold k l hk).1, hnodup.2, fun j hj => ?_⟩, hhead,
    by rw [hself], fun j hj => (hold j i hj).2 rfl, tally_enter _ _ rfl (by rw [hunused]; rfl) rfl⟩
  · rw [hne j fun he => hhead (he ▸ hj)]
    exact hc.popped j hj
  · rw [hne k (hold j k hjk).2]
    exact hc.waits j k (hold j k hjk).1
  · rw [hne j fun he => hnodup.1 (he ▸ hj)]
    exact hc.unused j (by rw [hfree]; exact mem_cons_of_mem i hj)

/-- An IRP that is nobody's next one is put behind another. -/
theorem Chains.link (hc : Chains s) (l : Fin n) (hhead : i ∉ s.heads) (hpopped : (s.irp i).status = .popped)
    (hlast : ∀ j, (s.irp j).next ≠ some i) : Chains (s.setNext l (some i)) := by
  have hold : ∀ j k, ((s.setNext l (some i)).irp j).next = some k → j = l ∧ k = i ∨ (s.irp j).next = some k := by
    intro j k hjk
    by_cases hjl : j = l
    · rw [hjl, irp_setNext_self] at hjk
      exact .inl ⟨hjl, (Option.some.inj hjk).symm⟩
    · rw [irp_setNext_of_ne s l _ hjl] at hjk
      exact .inr hjk
  refine { hc with popped := ?_, first := ?_, waits := ?_, one := ?_, unused := ?_ }
  · intro j hj
    rw [status_setNext]
    exact hc.popped j hj
  · intro j hj k hk
    rcases hold k j hk with ⟨-, rfl⟩ | h
    · exact hhead hj
    · exact hc.first j hj k h
  · intro j k hjk
    rw [status_setNext]
    rcases hold j k hjk with ⟨-, rfl⟩ | h
    · exact hpopped
    · exact hc.waits j k h
  · intro j k m hj hk
    rcases hold j m hj with ⟨rfl, rfl⟩ | hj'
    · rcases hold k m hk with ⟨rfl, -⟩ | hk'
      · rfl
      · exact absurd hk' (hlast k)
    · rcases hold k m hk with ⟨rfl, rfl⟩ | hk'
      · exact absurd hj' (hlast j)
      · exact hc.one j k m hj' hk'
  · intro j hj
    rw [status_setNext]
    exact hc.unused j hj

theorem heads_some (s : System n D) (notify : Notify n) : { s with notify := some notify }.heads = notify.irps := rfl

theorem chains_pop {notify notify' : Notify n} (hc : Chains s) (hnotify : s.notify = some notify)
    (hs : ioring_ctx_sqe_pop sentries s notify = some (s', notify')) (left : Nat) :
    Chains { s' with notify := some { notify' with left := left } } ∧ owed s' = owed s + 1 ∧
      unreaped s'.ctrl = unreaped s.ctrl ∧ s'.panic = s.panic := by
  have hheads : s.heads = notify.irps := by rw [System.heads, hnotify]
  unfold ioring_ctx_sqe_pop at hs
  split_ifs at hs with hempty
  split at hs
  · cases hs
  · rename_i i rest hfree
    split at hs
    · rename_i l hlink
      obtain ⟨rfl, rfl⟩ := Prod.mk.inj (Option.some.inj hs)
      obtain ⟨hc', hhead, hpopped, hlast, howed⟩ := chains_consume hc hfree _ (some (s.irp l).id)
      have hlinked := hc'.link l hhead hpopped hlast
      refine ⟨hlinked.renotify ?_ fun k hk => .inl ?_, (owed_setNext ..).trans howed, rfl, rfl⟩
      · rw [heads_some]
        exact hheads ▸ hc.heads
      · rw [heads_some] at hk
        exact hheads ▸ hk
    · rename_i hlink
      obtain ⟨rfl, rfl⟩ := Prod.mk.inj (Option.some.inj hs)
      obtain ⟨hc', hhead, hpopped, hlast, howed⟩ := chains_consume hc hfree _ none
      rw [hheads] at hhead
      refine ⟨hc'.renotify ?_ fun k hk => ?_, howed, rfl, rfl⟩
      · rw [heads_some]
        exact nodup_append.2 ⟨hheads ▸ hc.heads, nodup_singleton i, fun j hj k hk => by
          rw [mem_singleton.1 hk]
          rintro rfl
          exact hhead hj⟩
      · rw [heads_some, mem_append, mem_singleton] at hk
        rcases hk with hk | rfl
        · exact .inl (hheads ▸ hk)
        · exact .inr ⟨hpopped, hlast⟩

theorem chains_dispatch {notify : Notify n} {rest : List (Fin n)} (hc : Chains s) (hnotify : s.notify = some notify)
    (hirps : notify.irps = i :: rest) :
    Chains { s.dispatch i with notify := some { notify with irps := rest } } ∧ owed (s.dispatch i) = owed s := by
  have hheads : s.heads = i :: rest := by rw [System.heads, hnotify, ← hirps]
  have hmem : i ∈ s.heads := by simp [hheads]
  have hpopped := hc.popped i hmem
  obtain ⟨hnot, hrest⟩ := nodup_cons.1 (hheads ▸ hc.heads)
  have hfewer : Chains { s with notify := some { notify with irps := rest } } := by
    refine hc.renotify hrest fun k hk => .inl ?_
    rw [hheads]
    exact mem_cons_of_mem i hk
  have hfree : i ∉ s.free := by
    intro h
    rw [hc.unused i h] at hpopped
    cases hpopped
  have hset := hfewer.setStatus .dispatched hnot (hc.first i hmem) hfree
  refine ⟨{ hset with }, ?_⟩
  have howed := owed_setStatus s i .dispatched
  rw [hpopped] at howed
  exact Nat.add_right_cancel howed

/-- The completion of an IRP is posted. -/
theorem chains_post (error result : Nat) (hc : Chains s) (hi : (s.irp i).status = .dispatched) :
    Chains ((s.post i error result).setStatus i .completed) ∧
      owed ((s.post i error result).setStatus i .completed) + 1 = owed s := by
  have hposted : Chains (s.post i error result) := { hc with }
  obtain ⟨hhead, hlast, hfree⟩ := hc.out (by rw [hi]; nofun) (by rw [hi]; nofun)
  refine ⟨hposted.setStatus .completed hhead hlast hfree, ?_⟩
  have howed := owed_setStatus (s.post i error result) i .completed
  rw [show ((s.post i error result).irp i).status = .dispatched from hi] at howed
  exact howed

theorem chains_finish {cancelled : Bool} (hc : Chains s) (hi : (s.irp i).status = .completed)
    (hpanic : (finish s i cancelled).panic = none) :
    Chains (finish s i cancelled) ∧ owed (finish s i cancelled) = owed s ∧ (finish s i cancelled).ctrl = s.ctrl := by
  have hused : (s.irp i).status ≠ .free := by
    rw [hi]
    nofun
  obtain ⟨hhead, hlast, hfree⟩ := hc.out (by rw [hi]; nofun) hused
  have howed : ∀ status, status.owes = false → owed (s.setStatus i status) = owed s := by
    intro status hstatus
    have h := owed_setStatus s i status
    rw [hi, hstatus] at h
    exact h
  unfold finish at hpanic ⊢
  split_ifs at hpanic ⊢
  · exact ⟨hc.setStatus .leaked hhead hlast hfree, howed .leaked rfl, rfl⟩
  · exact ⟨hc.giveBack hhead hlast hused, howed .free rfl, rfl⟩

/-! ## Overflow -/

def NoOverflow (s : System n D) : Prop := s.panic ≠ some .overflow

/-- The process leaves `ctail` alone and only reaps what was posted, and an entry is
consumed only if there is room for its completion besides those that are posted or still
to be posted. -/
def Reserved (s : System n D) : Action n D → Prop
  | .write ctrl => ctrl.ctail = s.ctrl.ctail ∧ unreaped ctrl ≤ unreaped s.ctrl
  | .turn => ∀ notify ∈ s.notify, notify.popping = true → notify.left ≠ 0 → s.ctrl.shead ≠ s.ctrl.stail →
      unreaped s.ctrl + owed s < n
  | .push _ _ | .enter _ | .complete _ _ _ | .finish _ _ => True

structure Room (s : System n D) : Prop where
  chains : Chains s
  room : unreaped s.ctrl + owed s ≤ n

theorem room_init (memory : sqe_t D) : Room (init n memory) := by
  refine ⟨chains_init memory, ?_⟩
  simp [owed, tally, unreaped, init, Status.owes]

theorem unreaped_post {error result : Nat} (h : unreaped s.ctrl + 1 < 2 ^ 32) :
    unreaped (s.post i error result).ctrl = unreaped s.ctrl + 1 := by
  unfold unreaped System.post at *
  bv_omega

theorem room_turn (sentries : Nat) {notify : Notify n} (hr : Room s) (hnotify : s.notify = some notify)
    (hreserved : Reserved s .turn) : Room (turn sentries s notify) ∧ (turn sentries s notify).panic = s.panic := by
  have hheads : s.heads = notify.irps := by rw [System.heads, hnotify]
  have hstop : Room { s with notify := some { notify with popping := false } } :=
    ⟨hr.chains.renotify (hheads ▸ hr.chains.heads) fun i hi => .inl (hheads ▸ hi), hr.room⟩
  unfold turn
  split_ifs with hpopping hleft
  · exact ⟨hstop, rfl⟩
  · split
    · exact ⟨hstop, rfl⟩
    · rename_i s₁ notify₁ hpop
      have hsome : s.ctrl.shead ≠ s.ctrl.stail := by
        intro he
        simp [ioring_ctx_sqe_pop, he] at hpop
      obtain ⟨hc, howed, hunreaped, hpanic⟩ := chains_pop hr.chains hnotify hpop (notify₁.left - 1)
      refine ⟨⟨hc, ?_⟩, hpanic⟩
      have := hreserved notify hnotify hpopping hleft hsome
      show unreaped s₁.ctrl + owed s₁ ≤ n
      omega
  · split
    · exact ⟨⟨hr.chains.renotify nodup_nil nofun, hr.room⟩, rfl⟩
    · rename_i i rest hirps
      obtain ⟨hc, howed⟩ := chains_dispatch hr.chains hnotify hirps
      refine ⟨⟨hc, ?_⟩, rfl⟩
      show unreaped s.ctrl + owed (s.dispatch i) ≤ n
      rw [howed]
      exact hr.room

theorem room_complete {error result : Nat} (hn : n < POOL_IDX_MAX) (hr : Room s)
    (hi : (s.irp i).status = .dispatched) (hs : ioring_ctx_complete s i error result = some s') :
    Room s' ∧ s'.panic = s.panic := by
  have howes : 0 < owed s := tally_pos (c := i) (by rw [hi]; rfl)
  have hroom := hr.room
  rw [ioring_ctx_complete, if_neg (by omega)] at hs
  obtain ⟨hposted, howed⟩ := chains_post error result hr.chains hi
  have hf := followChain_followed hposted (by rw [irp_setStatus_self]) hs
  refine ⟨⟨hf.chains, ?_⟩, hf.panic⟩
  have hle := hf.owed
  have hunreaped : unreaped (s.post i error result).ctrl = unreaped s.ctrl + 1 :=
    unreaped_post (by unfold POOL_IDX_MAX at hn; omega)
  rw [hf.ctrl]
  show unreaped (s.post i error result).ctrl + owed s' ≤ n
  omega

theorem room_finish {cancelled : Bool} (hr : Room s) (hi : (s.irp i).status = .completed) (hpanic : s.panic = none) :
    NoOverflow (finish s i cancelled) ∧ ((finish s i cancelled).panic = none → Room (finish s i cancelled)) := by
  constructor
  · unfold NoOverflow finish
    split_ifs
    · rw [System.setStatus, hpanic]
      nofun
    · rw [System.giveBack, System.setStatus, hpanic]
      nofun
    · nofun
  · intro hfinish
    obtain ⟨hc, howed, hctrl⟩ := chains_finish hr.chains hi hfinish
    refine ⟨hc, ?_⟩
    rw [hctrl, howed]
    exact hr.room

theorem room_step {a : Action n D} (hn : n < POOL_IDX_MAX) (hi : NoOverflow s ∧ (s.panic = none → Room s))
    (hreserved : Reserved s a) (hs : step sentries s a = some s') : NoOverflow s' ∧ (s'.panic = none → Room s') := by
  unfold step at hs
  split_ifs at hs with hpanic
  have hnone : s.panic = none := by simpa using hpanic
  have hr := hi.2 hnone
  have hquiet : ∀ s₁ : System n D, s₁.panic = s.panic → Room s₁ → NoOverflow s₁ ∧ (s₁.panic = none → Room s₁) := by
    intro s₁ h₁ hr₁
    refine ⟨?_, fun _ => hr₁⟩
    rw [NoOverflow, h₁, hnone]
    nofun
  cases a with
  | write ctrl =>
    cases hs
    exact hquiet _ rfl ⟨{ hr.chains with }, (Nat.add_le_add_right hreserved.2 _).trans hr.room⟩
  | push slot sqe =>
    cases hs
    exact hquiet _ rfl ⟨{ hr.chains with }, hr.room⟩
  | enter amount =>
    simp only [act] at hs
    split_ifs at hs
    · cases hs
      exact hi
    · cases hs
      exact hquiet _ rfl ⟨hr.chains.renotify nodup_nil nofun, hr.room⟩
  | turn =>
    obtain ⟨notify, hnotify, rfl⟩ := map_eq_some_iff.1 hs
    obtain ⟨hr', hsame⟩ := room_turn sentries hr hnotify hreserved
    exact hquiet _ hsame hr'
  | complete i error result =>
    simp only [act] at hs
    split_ifs at hs with hstatus
    obtain ⟨hr', hsame⟩ := room_complete hn hr hstatus hs
    exact hquiet _ hsame hr'
  | finish i cancelled =>
    simp only [act] at hs
    split_ifs at hs with hstatus
    cases hs
    exact room_finish hr hstatus hnone

instance (s : System n D) : ∀ a : Action n D, Decidable (Reserved s a)
  | .write _ => inferInstanceAs (Decidable (_ ∧ _))
  | .turn => inferInstanceAs (Decidable (∀ notify ∈ s.notify, _ → _ → _ → _))
  | .push _ _ | .enter _ | .complete _ _ _ | .finish _ _ => inferInstanceAs (Decidable True)

/-- An entry of an operation there is not. -/
def unknown : sqe_t Nat := { op := 99, data := 0, link := false, hardlink := false }

def EINVAL : Nat := 22

/-- A call of `SYS_ENTER` that consumes one entry, whose operation ends at once. -/
def enterOne : List (Action 1 Nat) :=
  [.enter 1, .turn, .turn, .turn, .complete 0 EINVAL 0, .finish 0 false, .turn]

/-- Two entries are pushed, and the completion of the first is reaped in between. -/
def reaped : List (Action 1 Nat) :=
  .write ⟨0, 2, 0, 0⟩ :: enterOne ++ .write ⟨1, 2, 1, 1⟩ :: enterOne

/-- The same, without reaping. -/
def notReaped : List (Action 1 Nat) := .write ⟨0, 2, 0, 0⟩ :: enterOne ++ enterOne.take 5

end Patchwork.Ring
