import Patchwork.Sched.WaitRuns
/-!
# Calls of `wait.c` that run alone

`wait_unblock` collects blocked threads in batches. A batch may have as many threads as the
whole call, since what is unblocked is not taken from `amount`, and the call ends with a batch
that finds no thread: a call for one thread wakes all of them. The loop over a queue is what a
scan of the system does when its caller is the only one to take steps.

A `wait_block_prepare` that runs out of memory frees the entries it has made and takes them
from the list of the thread, but not from the queues.
-/

namespace Patchwork.Wait

open List Option Function Lib Utils

/-! ## `wait_unblock` -/

section Unblock
variable {T Q : Type} [DecidableEq T] [DecidableEq Q]

/-- The queues with the threads of their entries, and what is known of each thread. -/
structure Waiting (T Q : Type) where
  entries : Q → List T
  state : T → thread_state_t
  err : T → errno_t

/-- The loop over a queue with `n` threads to go: the entries that stay, the states and the
threads collected. -/
def collect (state : T → thread_state_t) : Nat → List T → List T × (T → thread_state_t) × List T
  | _, [] => ([], state, [])
  | 0, rest => (rest, state, [])
  | n + 1, t :: rest =>
    if state t = .BLOCKED then
      let r := collect (update state t .UNBLOCKING) n rest
      (r.1, r.2.1, t :: r.2.2)
    else
      let r := collect (update state t .UNBLOCKING) (n + 1) rest
      (t :: r.1, r.2.1, r.2.2)

/-- `wait_remove_wait_entries` and `sched_submit`. -/
def unblockThread (err : errno_t) (w : Waiting T Q) (t : T) : Waiting T Q where
  entries q := (w.entries q).filter (· ≠ t)
  state := update w.state t .ACTIVE
  err := update w.err t err

/-- The batches; `none` if there are more than `fuel`. -/
def wait_unblock_loop (queue : Q) (amount : Nat) (err : errno_t) : Nat → Waiting T Q → Option (List T × Waiting T Q)
  | 0, _ => none
  | fuel + 1, w =>
    let (kept, state, threads) := collect w.state (min amount threadsPerBatch) (w.entries queue)
    let w : Waiting T Q := { w with entries := update w.entries queue kept, state := state }
    if threads = [] then some ([], w)
    else
      (wait_unblock_loop queue amount err fuel (threads.foldl (unblockThread err) w)).map fun r => (threads ++ r.1, r.2)

/-- The threads that are unblocked, in their order; the call returns their number. -/
def wait_unblock (w : Waiting T Q) (queue : Q) (amount : Nat) (err : errno_t) : Option (List T × Waiting T Q) :=
  wait_unblock_loop queue amount err ((w.entries queue).length + 1) w

/-- The blocked threads with an entry in the queue. -/
def Waiting.blocked (w : Waiting T Q) (queue : Q) : List T := (w.entries queue).filter fun t => w.state t = .BLOCKED

/-- The first `amount` blocked threads are unblocked, or all of them. -/
def WakesRequested (w : Waiting T Q) (queue : Q) (amount : Nat) (call : Option (List T × Waiting T Q)) : Prop :=
  call.map Prod.fst = some (if amount = WAIT_ALL then w.blocked queue else (w.blocked queue).take amount)

omit [DecidableEq Q] in
theorem collect_spec (state : T → thread_state_t) (n : Nat) {l : List T} (hnd : l.Nodup) :
    (collect state n l).2.2 = (l.filter fun t => state t = .BLOCKED).take n ∧
      ((collect state n l).1.filter fun t => (collect state n l).2.1 t = .BLOCKED) =
        (l.filter fun t => state t = .BLOCKED).drop n ∧
      (collect state n l).1.Sublist l ∧ (∀ t ∈ (collect state n l).2.2, t ∉ (collect state n l).1) ∧
      ∀ t ∉ l, (collect state n l).2.1 t = state t := by
  induction l generalizing state n with
  | nil => simp [collect]
  | cons t l ih =>
    obtain ⟨hmem, hnd⟩ := nodup_cons.1 hnd
    cases n with
    | zero => exact ⟨take_zero.symm, rfl, .refl _, nofun, fun _ _ => rfl⟩
    | succ n =>
      -- the rest of the queue does not see the state of `t`
      have hrest : (l.filter fun u => update state t .UNBLOCKING u = .BLOCKED) = l.filter fun u => state u = .BLOCKED :=
        filter_congr fun u hu => by rw [update_of_ne fun heq : u = t => hmem (heq ▸ hu)]
      have hother : ∀ u ∉ t :: l, update state t .UNBLOCKING u = state u := fun u hu =>
        update_of_ne (fun heq : u = t => hu (heq ▸ mem_cons_self)) ..
      by_cases hb : state t = .BLOCKED
      · obtain ⟨h1, h2, h3, h4, h5⟩ := ih (update state t .UNBLOCKING) n hnd
        simp only [hrest] at h1 h2
        simp only [collect, hb, if_true, filter_cons, decide_true, take_succ_cons, drop_succ_cons]
        refine ⟨congrArg _ h1, h2, h3.cons t, forall_mem_cons.2 ⟨fun hm => hmem (h3.subset hm), h4⟩, fun u hu => ?_⟩
        rw [h5 u fun hm => hu (mem_cons_of_mem _ hm), hother u hu]
      · obtain ⟨h1, h2, h3, h4, h5⟩ := ih (update state t .UNBLOCKING) (n + 1) hnd
        simp only [hrest] at h1 h2
        have ht := h5 t hmem
        rw [update_self] at ht
        have hnot : t ∉ (collect (update state t .UNBLOCKING) (n + 1) l).2.2 := by
          rw [h1]
          exact fun hm => hmem (mem_filter.1 (mem_of_mem_take hm)).1
        simp only [collect, hb, if_false, filter_cons, decide_false, ht, reduceCtorEq, Bool.false_eq_true]
        refine ⟨h1, h2, h3.cons_cons t, fun u hu => ?_, fun u hu => ?_⟩
        · exact fun hm => (mem_cons.1 hm).elim (fun heq => hnot (heq ▸ hu)) (h4 u hu)
        · rw [h5 u fun hm => hu (mem_cons_of_mem _ hm), hother u hu]

omit [DecidableEq Q] in
theorem blocked_foldl_unblock (err : errno_t) (queue : Q) {threads : List T} {w : Waiting T Q}
    (h : ∀ t ∈ threads, t ∉ w.entries queue) : (threads.foldl (unblockThread err) w).entries queue = w.entries queue ∧
      (threads.foldl (unblockThread err) w).blocked queue = w.blocked queue := by
  induction threads generalizing w with
  | nil => exact ⟨rfl, rfl⟩
  | cons t threads ih =>
    obtain ⟨ht, h⟩ := forall_mem_cons.1 h
    have hentries : (unblockThread err w t).entries queue = w.entries queue :=
      filter_eq_self.2 fun u hu => decide_eq_true fun heq => ht (heq ▸ hu)
    have hblocked : (unblockThread err w t).blocked queue = w.blocked queue := by
      rw [Waiting.blocked, hentries]
      refine filter_congr fun u hu => ?_
      have hstate : (unblockThread err w t).state u = w.state u := update_of_ne (fun heq : u = t => ht (heq ▸ hu)) ..
      rw [hstate]
    obtain ⟨h1, h2⟩ := ih (w := unblockThread err w t) (hentries ▸ h)
    exact ⟨h1.trans hentries, h2.trans hblocked⟩

/-- Batch by batch all blocked threads are unblocked. -/
theorem wait_unblock_loop_spec {queue : Q} {amount : Nat} (hpos : 0 < amount) (err : errno_t) (fuel : Nat)
    {w : Waiting T Q} (hnd : (w.entries queue).Nodup) (hfuel : (w.blocked queue).length < fuel) :
    (wait_unblock_loop queue amount err fuel w).map Prod.fst = some (w.blocked queue) := by
  induction fuel generalizing w with
  | zero => exact absurd hfuel (Nat.not_lt_zero _)
  | succ fuel ih =>
    obtain ⟨h1, h2, h3, h4, -⟩ := collect_spec w.state (min amount threadsPerBatch) hnd
    rw [wait_unblock_loop]
    generalize collect w.state (min amount threadsPerBatch) (w.entries queue) = r at h1 h2 h3 h4 ⊢
    obtain ⟨kept, state, threads⟩ := r
    dsimp only at h1 h2 h3 h4 ⊢
    change threads = (w.blocked queue).take _ at h1
    change _ = (w.blocked queue).drop _ at h2
    have hbatch : 0 < min amount threadsPerBatch := Nat.lt_min.2 ⟨hpos, by decide⟩
    have hsplit := take_append_drop (min amount threadsPerBatch) (w.blocked queue)
    rw [← h1, ← h2] at hsplit
    split
    · next hnil =>
      rw [hnil, eq_comm, take_eq_nil_iff] at h1
      rw [h1.resolve_left (Nat.ne_of_gt hbatch)]
      rfl
    · next hne =>
      generalize hw' : ({ w with entries := update w.entries queue kept, state := state } : Waiting T Q) = w'
      have hkept : w'.entries queue = kept := by rw [← hw']; exact update_self ..
      have hleft : w'.blocked queue = kept.filter fun t => state t = .BLOCKED := by rw [Waiting.blocked, hkept, ← hw']
      obtain ⟨h5, h6⟩ := blocked_foldl_unblock err queue (hkept ▸ h4)
      rw [hleft] at h6
      have hlen := congrArg length hsplit
      rw [length_append, ← h6] at hlen
      have hsome := ih (w := threads.foldl (unblockThread err) w') (by rw [h5, hkept]; exact h3.nodup hnd)
        (by have := length_pos_iff.2 hne; omega)
      rw [h6] at hsome
      obtain ⟨r, hr, hfst⟩ := map_eq_some_iff.1 hsome
      rw [hr, map_some, map_some, hfst, hsplit]

/-- A thread has one entry in a queue. The requested number is unblocked exactly if it is none
or there are not more blocked threads. -/
theorem wakes_requested_iff {w : Waiting T Q} {queue : Q} (hnd : (w.entries queue).Nodup) (amount : Nat) (err : errno_t) :
    WakesRequested w queue amount (wait_unblock w queue amount err) ↔
      amount = 0 ∨ amount = WAIT_ALL ∨ (w.blocked queue).length ≤ amount := by
  rw [WakesRequested, wait_unblock]
  by_cases h0 : amount = 0
  · subst h0
    have hnone : (collect w.state 0 (w.entries queue)).2.2 = [] := by cases w.entries queue <;> rfl
    simp [wait_unblock_loop, hnone, WAIT_ALL]
  · rw [wait_unblock_loop_spec (Nat.pos_of_ne_zero h0) err _ hnd (Nat.lt_succ_of_le (length_filter_le ..)),
      some.injEq, or_iff_right h0]
    split
    · next hall => simp [hall]
    · next hall => rw [or_iff_right hall, eq_comm, take_eq_self_iff]

/-- Three threads wait on a queue, two of them are blocked. -/
def threeWaiting : Waiting (Fin 3) Unit where
  entries _ := [0, 1, 2]
  state t := if t = 1 then .PRE_BLOCK else .BLOCKED
  err _ := .EOK

theorem threeWaiting_all : WakesRequested threeWaiting () WAIT_ALL (wait_unblock threeWaiting () WAIT_ALL .EOK) :=
  (wakes_requested_iff (by decide) WAIT_ALL .EOK).2 (.inr (.inl rfl))

/-- One thread is to be woken, and two are. -/
theorem threeWaiting_one : (wait_unblock threeWaiting () 1 .EOK).map Prod.fst = some [0, 2] ∧
    ¬ WakesRequested threeWaiting () 1 (wait_unblock threeWaiting () 1 .EOK) := by
  unfold WakesRequested
  decide

end Unblock

/-! ## A scan of the system -/

section Scan
variable {T Q C E A : Type} [DecidableEq T] [DecidableEq Q] [DecidableEq C] [DecidableEq E] [DecidableEq A]
variable {s : System T Q C E A} {ring : Q → List E} {a : A} {call : Call T Q} {threads : List T} {t : T}

/-- Only the caller `a` takes steps. -/
def Alone (a : A) : System T Q C E A → System T Q C E A → Prop :=
  Relation.ReflTransGen fun s s' => step s (.proceed a 0) = some s'

variable {done rest : List E} {e : E} {n : Nat}

/-- A turn of a scan that has room for another thread. -/
theorem scan_turn (hlist : Listed s.lists ring) (hring : ring call.queue = done ++ e :: rest)
    (hc : s.caller a = .scanning call (.entry e) threads) (hn : threads.length + (n + 1) = min call.amount threadsPerBatch)
    (ht : (s.lists.entry e).thread = t) : ∃ s', step s (.proceed a 0) = some s' ∧
      s'.thread = update s.thread t { s.thread t with state := .UNBLOCKING } ∧
      s'.lists = (if (s.thread t).state = .BLOCKED then s.lists.remove e else s.lists) ∧
      s'.caller a = .scanning call (first call.queue rest)
        (if (s.thread t).state = .BLOCKED then threads ++ [t] else threads) := by
  have hq := hlist.rings.ring call.queue
  rw [hring, map_append, map_cons] at hq
  refine ⟨scanEntry s a call e threads, ?_, ?_⟩
  · rw [step, proceed, hc]
    exact if_neg (by omega)
  · rw [scanEntry, hq.next_mid, headD_eq_first, ht]
    split_ifs <;> exact ⟨rfl, rfl, update_self ..⟩

/-- A scan of the system is the loop over the threads of the entries in its queue. -/
theorem scan_collect {state state' : T → thread_state_t} {kept found : List T}
    (hlist : Listed s.lists ring) (hring : ring call.queue = done ++ rest)
    (hc : s.caller a = .scanning call (first call.queue rest) threads)
    (hn : threads.length + n = min call.amount threadsPerBatch) (hstate : ∀ t, (s.thread t).state = state t)
    (hr : collect state n (rest.map fun e => (s.lists.entry e).thread) = (kept, state', found)) :
    ∃ s₁ es, Alone a s (endScan s₁ a call (threads ++ found)) ∧
      Listed s₁.lists (update ring call.queue (done ++ es)) ∧ s₁.lists.entry = s.lists.entry ∧
      (es.map fun e => (s.lists.entry e).thread) = kept ∧ ∀ t, s₁.thread t = { s.thread t with state := state' t } := by
  induction rest generalizing s ring threads done n state kept found with
  | nil =>
    rw [map_nil, collect] at hr
    cases hr
    refine ⟨s, [], .single ?_, ?_, rfl, rfl, fun t => by rw [← hstate t]⟩
    · rw [step, proceed, hc, append_nil]
      exact if_pos rfl
    · rwa [← hring, update_eq_self]
  | cons e rest ih =>
    cases n with
    | zero =>
      cases hr
      refine ⟨s, e :: rest, .single ?_, ?_, rfl, rfl, fun t => by rw [← hstate t]⟩
      · rw [step, proceed, hc, append_nil]
        exact if_pos hn
      · rwa [← hring, update_eq_self]
    | succ n =>
      obtain ⟨hmem, hqueue⟩ := (hlist.mem_ring _ e).1 (hring ▸ mem_append_right done mem_cons_self)
      generalize ht : (s.lists.entry e).thread = t at hmem
      obtain ⟨s', hs, hthread, hlists, hcaller⟩ := scan_turn hlist hring hc hn ht
      have hstate' : ∀ u, (s'.thread u).state = update state t .UNBLOCKING u := by
        intro u
        rw [hthread]
        simp only [update_apply]
        split
        · rfl
        · exact hstate u
      have hrest : ∀ u x, { s'.thread u with state := x } = { s.thread u with state := x } := by
        intro u x
        rw [hthread, update_apply]
        split
        · next h => rw [h]
        · rfl
      rw [map_cons, ht, collect] at hr
      rw [hstate] at hlists hcaller
      split at hr
      · next hb =>
        generalize hr' : collect (update state t .UNBLOCKING) n _ = r at hr
        obtain ⟨kept, state', found⟩ := r
        cases hr
        rw [if_pos hb] at hlists hcaller
        have hlist' := hlist.remove hmem (hqueue ▸ hring)
        rw [← hlists, hqueue] at hlist'
        have hentry : s'.lists.entry = s.lists.entry := by rw [hlists]; rfl
        rw [← hentry] at hr' ⊢
        obtain ⟨s₁, es, halone, hlisted, hsame, hkept, hthreads⟩ := ih hlist' (update_self ..) hcaller
          (by rw [length_append, length_singleton]; omega) hstate' hr'
        rw [update_idem] at hlisted
        rw [append_assoc, singleton_append] at halone
        exact ⟨s₁, es, .head hs halone, hlisted, hsame, hkept, fun u => (hthreads u).trans (hrest ..)⟩
      · next hb =>
        generalize hr' : collect (update state t .UNBLOCKING) (n + 1) _ = r at hr
        obtain ⟨kept, state', found⟩ := r
        cases hr
        rw [if_neg hb] at hlists hcaller
        rw [← hlists] at hlist hr' ht ⊢
        have hring' : ring call.queue = done ++ [e] ++ rest := by rw [hring, append_assoc, singleton_append]
        obtain ⟨s₁, es, halone, hlisted, hsame, hkept, hthreads⟩ := ih hlist hring' hcaller hn hstate' hr'
        rw [append_assoc, singleton_append] at hlisted
        exact ⟨s₁, e :: es, .head hs halone, hlisted, hsame, by rw [map_cons, hkept, ht],
          fun u => (hthreads u).trans (hrest ..)⟩

end Scan

/-! ## `wait_block_prepare` -/

variable {T Q C E A : Type} [DecidableEq T] [DecidableEq Q] [DecidableEq E]

/-- The queues and the list of the thread are as before, and the entries in the queues are allocated. -/
structure AsBefore (l : Lists T Q E) (ring : Q → List E) (t : T) (l' : Lists T Q E) : Prop where
  queues : ∀ q, Ring l'.links (.head q) ((ring q).map .entry)
  entries : l'.entries t = l.entries t
  allocated : ∀ q, ∀ e ∈ ring q, l'.allocated e = true

theorem prev_push (l : Lists T Q E) (t : T) (q q' : Q) (e : E) :
    (l.push t q e).links.prev (.head q') = if q' = q then .entry e else l.links.prev (.head q') := by
  simp only [Lists.push, list_push_back, list_add, list_entry_init, Links.setNext, Links.setPrev, update_apply,
    reduceCtorEq, if_false, Node.head.injEq]

/-- The last entry of a queue is the one that was there, or a new one. -/
theorem enqueueAll_prev {l l' : Lists T Q E} {t : T} {qs : List Q} {answers : List (Option E)} {b : Bool}
    (h : enqueueAll l t qs answers = some (l', b)) (q : Q) :
    l'.links.prev (.head q) = l.links.prev (.head q) ∨
      ∃ e, l.allocated e = false ∧ l'.links.prev (.head q) = .entry e := by
  induction qs generalizing l answers with
  | nil =>
    cases h
    exact .inl rfl
  | cons q' qs ih =>
    match answers with
    | none :: _ =>
      cases h
      exact .inl rfl
    | some e :: answers =>
      simp only [enqueueAll, ite_none_left_eq_some, Bool.not_eq_true] at h
      rcases ih h.2 with heq | ⟨e', he', heq⟩
      · rw [prev_push] at heq
        split at heq
        · exact .inr ⟨e, h.1, heq⟩
        · exact .inl heq
      · refine .inr ⟨e', ?_, heq⟩
        simp only [Lists.push, update_apply] at he'
        split at he'
        · cases he'
        · exact he'

/-- A call that runs out of memory leaves the lists as they were exactly if it has not made an
entry yet, and the thread had none. -/
theorem prepare_atomic_iff {s s' : System T Q C E A} {ring : Q → List E} (hlist : Listed s.lists ring) {t : T}
    {waitQueues : List Q} {answers : List (Option E)} {timeout uptime : Nat}
    (hs : wait_block_prepare s t waitQueues answers timeout uptime = some s')
    (hfail : prepareFails s t waitQueues answers = true) :
    AsBefore s.lists ring t s'.lists ↔ answers.head? = some none ∧ s.lists.entries t = [] := by
  obtain ⟨l', henq⟩ : ∃ l', enqueueAll s.lists t waitQueues answers = some (l', false) := by
    unfold prepareFails at hfail
    split at hfail
    · exact ⟨_, ‹_›⟩
    · cases hfail
  have hne : waitQueues ≠ [] := by
    rintro rfl
    cases henq
  have hl : s'.lists = l' := by
    rw [wait_block_prepare, if_neg hne, henq] at hs
    split at hs <;> cases hs
    rfl
  have hmem : ∀ q, ∀ e ∈ ring q, s.lists.allocated e = true := fun q e he =>
    hlist.allocated _ e ((hlist.mem_ring q e).1 he).1
  rw [hl]
  obtain ⟨q, qs, rfl⟩ := exists_cons_of_ne_nil hne
  match answers with
  | none :: answers =>
    cases henq
    refine ⟨fun h => ⟨rfl, ?_⟩, fun h => ?_⟩
    · rw [← h.entries]
      exact update_self ..
    · rw [popAll_of_nil h.2]
      exact ⟨hlist.rings.ring, rfl, hmem⟩
  | some e :: answers =>
    refine iff_of_false (fun h => ?_) (by simp)
    simp only [enqueueAll, ite_none_left_eq_some, Bool.not_eq_true] at henq
    -- the last entry of the first queue was not allocated before
    obtain ⟨e', he', hprev⟩ : ∃ e', s.lists.allocated e' = false ∧ l'.links.prev (.head q) = .entry e' := by
      rcases enqueueAll_prev henq.2 q with heq | ⟨e', he', heq⟩
      · rw [prev_push, if_pos rfl] at heq
        exact ⟨e, henq.1, heq⟩
      · simp only [Lists.push, update_apply] at he'
        split at he'
        · cases he'
        · exact ⟨e', he', heq⟩
    have hin := (h.queues q).prev_head_mem
    rw [hprev] at hin
    simp only [mem_cons, reduceCtorEq, List.mem_map, Node.entry.injEq, exists_eq_right, false_or] at hin
    rw [hmem q e' hin] at he'
    cases he'

/-- Thread `false` has an entry in each of two queues. -/
def otherWaits : System Bool (Fin 2) Unit (Fin 2) Unit :=
  have s := init fun _ => ⟨true, 0⟩
  { s with lists := (s.lists.push false 0 0).push false 1 1 }

theorem firstFails_asBefore : ∃ s', wait_block_prepare otherWaits true [1, 0] [none] 0 0 = some s' ∧
    AsBefore otherWaits.lists (update (update (fun _ => []) 0 [0]) 1 [1]) true s'.lists := by
  have hlist : Listed otherWaits.lists _ := ((listed_init _).push false 0 rfl).push false 1 rfl
  obtain ⟨s', hs⟩ : ∃ s', wait_block_prepare otherWaits true [1, 0] [none] 0 0 = some s' := ⟨_, rfl⟩
  exact ⟨s', hs, (prepare_atomic_iff hlist hs rfl).2 ⟨rfl, rfl⟩⟩

/-- The state of the counterexample. -/
def waitInit : System Unit (Fin 2) Unit (Fin 2) Unit := init fun _ => ⟨(), 0⟩

/-- The entry of the first queue is freed and still in it. -/
theorem secondFails_linked : (wait_block_prepare waitInit () [0, 1] [some 0, none] 0 0).map (fun s =>
    (s.lists.links.next (.head 0), s.lists.allocated 0, s.lists.entries ())) = some (.entry 0, false, []) := by
  decide

end Patchwork.Wait
