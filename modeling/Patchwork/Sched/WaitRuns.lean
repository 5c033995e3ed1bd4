import Patchwork.Sched.WaitSteps
/-!
# No wake-up is lost

A scan that finds an entry makes its thread unblocking, and from then on that
wait of the thread is over or coming to its end: the thread is `Passed`. A call of
`wait_unblock` for at least one thread only returns after a scan that came to the
end of its queue, so it leaves no thread blocked whose entry it found there.

All of it rests on the queues being rings of the entries of waiting threads. The
one step that breaks this is a `wait_block_prepare` that runs out of memory after
it has linked an entry: the entry is freed and stays in its queue.
-/

namespace Patchwork.Wait

open List Option Function Lib Utils

variable {T Q C E A : Type} {s s' : System T Q C E A} {t : T} {a : A} {c : C} {ring : Q → List E}

/-! ## Threads that a scan has passed -/

/-- The wait with this number is over, or the thread is unblocking in it. -/
def Thread.Passed (th : Thread C) (n : Nat) : Prop :=
  n < th.waits ∨ n = th.waits ∧ (th.state = .UNBLOCKING ∨ th.place.out = true)

variable {th th' : Thread C} {entries : List E} {answers : List (Option E)} {threads : List T}

theorem Thread.Keeps.passed_of (h : th.Keeps th' entries) {n : Nat} (hp : th.Passed n) : th'.Passed n := by
  unfold Thread.Passed at hp ⊢
  rw [h.waits]
  exact hp.imp_right fun ⟨hn, hu⟩ => ⟨hn, h.passed hu⟩

/-! ## The invariant -/

/-- The node that a scan is at, with these entries still to come. -/
def first (q : Q) : List E → Node Q E
  | [] => .head q
  | e :: _ => .entry e

theorem headD_eq_first (q : Q) (rest : List E) : (rest.map Node.entry).headD (.head q) = first q rest := by
  cases rest <;> rfl

/-- A scan holds the lock of its queue, is at one of its places and has made the
threads before it unblocking. -/
def ScanOk (s : System T Q C E A) (ring : Q → List E) (a : A) : Prop :=
  ∀ call elem threads, s.caller a = .scanning call elem threads → s.qlock call.queue = some a ∧
    ∃ done rest, ring call.queue = done ++ rest ∧ elem = first call.queue rest ∧
      ∀ e ∈ done, (s.thread (s.lists.entry e).thread).state = .UNBLOCKING

/-- The threads that a call has seen are passed or still in its queue. -/
def Seen (s : System T Q C E A) (call : Call T Q) : Prop :=
  ∀ scan ∈ call.scans, ∀ t n, scan t = some n → (s.thread t).Passed n ∨
    (s.thread t).waits = n ∧ ∃ e ∈ s.lists.entries t, (s.lists.entry e).queue = call.queue

def Woken (s : System T Q C E A) (call : Call T Q) : Prop :=
  ∀ scan ∈ call.scans, ∀ t n, scan t = some n → (s.thread t).Passed n

structure Inv (s : System T Q C E A) (ring : Q → List E) : Prop where
  listed : Listed s.lists ring
  proto : Proto s
  scan : ∀ a, ScanOk s ring a
  seen : ∀ a call, (s.caller a).call = some call → Seen s call
  woken : ∀ call ∈ s.returned, call.amount ≠ 0 → Woken s call

theorem inv_init (memory : E → wait_entry_t T Q) : Inv (init memory : System T Q C E A) fun _ => [] where
  listed := listed_init memory
  proto := proto_init memory
  scan := nofun
  seen := nofun
  woken := nofun

variable {call : Call T Q}

section
variable (hk : ∀ u, (s.thread u).Keeps (s'.thread u) (s.lists.entries u))
include hk

theorem Woken.keeps (h : Woken s call) : Woken s' call :=
  fun scan hscan u n hn => (hk u).passed_of (h scan hscan u n hn)

theorem Seen.keeps (h : Seen s call) (hl : s'.lists = s.lists) : Seen s' call := by
  intro scan hscan u n hn
  rw [hl, (hk u).waits]
  exact (h scan hscan u n hn).imp_left (hk u).passed_of

/-- The threads of the entries in a queue do not stop unblocking. -/
theorem ScanOk.keeps (h : ScanOk s ring a) (hlist : Listed s.lists ring) (hcaller : s'.caller a = s.caller a)
    (hlock : ∀ q, s.qlock q = some a → s'.qlock q = some a) (hl : s'.lists = s.lists) : ScanOk s' ring a := by
  intro call elem threads hc
  rw [hcaller] at hc
  obtain ⟨hq, done, rest, hring, helem, hdone⟩ := h call elem threads hc
  refine ⟨hlock _ hq, done, rest, hring, helem, fun e he => ?_⟩
  rw [hl]
  have hmem : e ∈ ring call.queue := hring ▸ mem_append_left _ he
  exact (hk _).unblocking (ne_nil_of_mem ((hlist.mem_ring _ e).1 hmem).1) (hdone e he)

end

/-- What holds of the waiting subsystem. -/
structure Safe (s : System T Q C E A) : Prop where
  /-- A thread is submitted at most once before it blocks again. -/
  once : ∀ t, (s.thread t).submits ≤ 1
  /-- No two callers, and no caller twice, are about to submit the same thread. -/
  alone : ∀ a b t, t ∈ (s.caller a).owned → t ∈ (s.caller b).owned → a = b
  nodup : ∀ a, (s.caller a).owned.Nodup
  /-- A thread that is about to be submitted has become blocked and does not run. -/
  off : ∀ a, ∀ t ∈ (s.caller a).owned, (s.thread t).place.off = true
  /-- A thread that has become blocked is blocked or about to be submitted. -/
  claimed : ∀ t, (s.thread t).place.off = true → (s.thread t).state = .BLOCKED ∨ ∃ a, t ∈ (s.caller a).owned
  /-- A call of `wait_unblock` that has returned leaves no thread blocked in a wait
  whose entry was in its queue at one of its scans. -/
  woken : ∀ call ∈ s.returned, call.amount ≠ 0 → ∀ scan ∈ call.scans, ∀ t n, scan t = some n →
    ¬ ((s.thread t).state = .BLOCKED ∧ (s.thread t).waits = n)

theorem Inv.safe (h : Inv s ring) : Safe s where
  once t := (h.proto.thread t).submits
  alone := h.proto.alone
  nodup a := (h.proto.caller a).nodup
  off a t ht := ((h.proto.caller a).owned t ht).1
  claimed t hoff := by
    have hst := (h.proto.thread t).state
    cases hp : (s.thread t).place with
    | noting _ | left =>
      simp only [Thread.StateOk, hp] at hst
      exact hst.imp_right (h.proto.claimed t hoff)
    | _ => simp [hp, Place.off] at hoff
  woken call hc hamount scan hscan t n hn := by
    rintro ⟨hb, hw⟩
    rcases h.woken call hc hamount scan hscan t n hn with hlt | ⟨-, hun | hout⟩
    · omega
    · rw [hb] at hun
      cases hun
    · have hoff := out_of_off ((h.proto.thread t).state.off hb)
      rw [hout] at hoff
      cases hoff

/-! ## Steps that leave the lists alone -/

theorem Inv.quiet (h : Inv s ring) (hs : Kept s s') : Inv s' ring where
  listed := hs.2.lists ▸ h.listed
  proto := hs.1
  scan b := by
    rcases hs.2.caller b with hb | hb
    · exact (h.scan b).keeps hs.2.thread h.listed hb (fun q hq => by rw [hs.2.qlock]; exact hq) hs.2.lists
    · exact fun call elem threads hc => absurd hc (hb.1 call elem threads)
  seen b call hc := by
    rcases hs.2.caller b with hb | hb
    · rw [hb] at hc
      exact (h.seen b call hc).keeps hs.2.thread hs.2.lists
    · rcases hb.2 call hc with hc | hc
      · exact (h.seen b call hc).keeps hs.2.thread hs.2.lists
      · intro scan hscan
        rw [hc] at hscan
        cases hscan
  woken call hc hamount := (h.woken call (hs.2.returned ▸ hc) hamount).keeps hs.2.thread

theorem Inv.sched_do [DecidableEq T] [DecidableEq C] (h : Inv s ring)
    (hp : (s.thread t).place = .running ∨ (s.thread t).place = .committed)
    (hs : sched_do s t c = some s') : Inv s' ring := by
  have hst := (h.proto.thread t).state
  have hcom : (s.thread t).state ≠ .ACTIVE → (s.thread t).place = .committed := by
    intro hact
    refine hp.resolve_left fun hrun => hact ?_
    simpa only [Thread.StateOk, hrun] using hst
  unfold Wait.sched_do at hs
  split at hs
  · rename_i hpre
    exact h.quiet (h.proto.finalize (hcom (by rw [hpre]; rintro ⟨⟩)) hs)
  · rename_i hun
    exact h.quiet (h.proto.finalize (hcom (by rw [hun]; rintro ⟨⟩)) hs)
  · cases hs
    exact h
  · cases hs

/-! ## Steps that change the lists -/

section
variable [DecidableEq T] [DecidableEq Q] [DecidableEq E]

/-- An entry of an unblocking thread is removed from a queue that no scan holds. -/
theorem Inv.removeFirst (h : Inv s ring) (hun : (s.thread t).state = .UNBLOCKING)
    (hs : removeFirst s t = some s') : ∃ ring', Inv s' ring' := by
  have hproto := h.proto.removeFirst h.listed hs
  unfold Wait.removeFirst at hs
  split at hs
  · cases hs
  · rename_i e rest he
    split at hs
    · rename_i hfree
      have hmem : e ∈ s.lists.entries t := by rw [he]; exact mem_cons_self
      have hring : e ∈ ring (s.lists.entry e).queue := by
        rw [h.listed.mem_ring, h.listed.thread t e hmem]
        exact ⟨hmem, rfl⟩
      obtain ⟨l₁, l₂, hl⟩ := append_of_mem hring
      rw [← some.inj hs] at hproto ⊢
      refine ⟨_, h.listed.remove hmem hl, hproto, ?_, ?_, h.woken⟩
      · intro b call elem threads hc
        obtain ⟨hq, done, rest, hring, helem, hdone⟩ := h.scan b call elem threads hc
        have hne : call.queue ≠ (s.lists.entry e).queue := by
          intro heq
          rw [heq, hfree] at hq
          cases hq
        refine ⟨hq, done, rest, ?_, helem, hdone⟩
        rw [update_of_ne hne]
        exact hring
      · intro b call hc scan hscan u n hn
        rcases h.seen b call hc scan hscan u n hn with hp | ⟨hw, e', he', hq⟩
        · exact .inl hp
        · by_cases hee : e' = e
          · subst hee
            obtain rfl : u = t := (h.listed.thread u e' he').symm.trans (h.listed.thread t e' hmem)
            exact .inl (.inr ⟨hw.symm, .inl hun⟩)
          · exact .inr ⟨hw, e', (h.listed.mem_entries_remove hmem u e').2 ⟨he', hee⟩, hq⟩
    · cases hs

/-- The entries that `wait_block_prepare` links do not touch other queues and
threads. -/
theorem enqueueAll_listed {l l' : Lists T Q E} {qs : List Q} (hl : Listed l ring)
    (h : enqueueAll l t qs answers = some (l', true)) :
    ∃ ring', Listed l' ring' ∧ (∀ q, q ∉ qs → ring' q = ring q) ∧
      (∀ u ≠ t, l'.entries u = l.entries u) ∧ ∀ u, ∀ e ∈ l.entries u, l'.entry e = l.entry e := by
  induction qs generalizing l ring answers with
  | nil =>
    obtain ⟨rfl, -⟩ := Prod.mk.inj (some.inj h)
    exact ⟨ring, hl, fun _ _ => rfl, fun _ _ => rfl, fun _ _ _ => rfl⟩
  | cons q qs ih =>
    cases answers with
    | nil => cases h
    | cons answer answers =>
      cases answer with
      | none => simp [enqueueAll] at h
      | some e =>
        simp only [enqueueAll] at h
        split at h
        · cases h
        · rename_i hfree
          have hfree : l.allocated e = false := by simpa using hfree
          obtain ⟨ring', hl', hring, hother, hentry⟩ := ih (hl.push t q hfree) h
          refine ⟨ring', hl', fun q' hq' => ?_, fun u hu => ?_, fun u e' he' => ?_⟩
          · rw [mem_cons, not_or] at hq'
            rw [hring q' hq'.2, update_of_ne hq'.1]
          · rw [hother u hu]
            simp only [Lists.push, update_of_ne hu]
          · have hne : e' ≠ e := by
              rintro rfl
              exact hl.not_mem_of_free hfree u he'
            rw [hentry u e' ((mem_entries_push l t u q e e').2 (.inl he'))]
            simp only [Lists.push, update_of_ne hne]

variable (h : Inv s ring)
include h

theorem Inv.enqueue (hp : (s.thread t).place = .running) {qs : List Q}
    {l : Lists T Q E} (hl : enqueueAll s.lists t qs answers = some (l, true))
    (hfree : ∀ q ∈ qs, s.qlock q = none) (deadline : Nat) :
    ∃ ring', Inv (({ s with lists := l } : System T Q C E A).setThread t fun th =>
      { th with place := .enqueued, err := .EOK, deadline := deadline, owner := none, waits := th.waits + 1 })
      ring' := by
  obtain ⟨ring', hlist, hring, hother, hentry⟩ := enqueueAll_listed h.listed hl
  have hnil : s.lists.entries t = [] := (h.proto.thread t).entries (by rw [hp]; rfl)
  have hne : ∀ {u e}, e ∈ s.lists.entries u → u ≠ t := by
    rintro u e he rfl
    rw [hnil] at he
    cases he
  -- Whatever was passed before stays so: the thread only begins a new wait.
  have hpassed : ∀ u n, (s.thread u).Passed n → (Thread.Passed (update s.thread t
      { s.thread t with place := .enqueued, err := .EOK, deadline := deadline, owner := none,
                        waits := (s.thread t).waits + 1 } u) n) := by
    intro u n hu
    by_cases hut : u = t
    · subst hut
      rw [update_self]
      left
      rcases hu with hu | ⟨hu, -⟩
      · exact Nat.lt_succ_of_lt hu
      · exact Nat.lt_succ_of_le (Nat.le_of_eq hu)
    · rw [update_of_ne hut]
      exact hu
  refine ⟨ring', hlist, h.proto.prepare hp hother, ?_, ?_, ?_⟩
  · intro b call elem threads hc
    obtain ⟨hq, done, rest, hr, helem, hdone⟩ := h.scan b call elem threads hc
    have hnot : call.queue ∉ qs := by
      intro hmem
      rw [hfree _ hmem] at hq
      cases hq
    refine ⟨hq, done, rest, (hring _ hnot).trans hr, helem, fun e he => ?_⟩
    have hmem : e ∈ ring call.queue := hr ▸ mem_append_left _ he
    have hmem' := ((h.listed.mem_ring _ e).1 hmem).1
    simp only [System.setThread]
    rw [hentry _ e hmem', update_of_ne (hne hmem')]
    exact hdone e he
  · intro b call hc scan hscan u n hn
    rcases h.seen b call hc scan hscan u n hn with hu | ⟨hw, e, he, hq⟩
    · exact .inl (hpassed u n hu)
    · have hut := hne he
      refine .inr ⟨?_, e, ?_, ?_⟩
      · simp only [System.setThread, update_of_ne hut]
        exact hw
      · show e ∈ l.entries u
        rw [hother u hut]
        exact he
      · show (l.entry e).queue = call.queue
        rw [hentry u e he]
        exact hq
  · intro call hc hamount scan hscan u n hn
    exact hpassed u n (h.woken call hc hamount scan hscan u n hn)

end

/-! ## Scans -/

section
variable (h : Inv s ring)
include h

/-- A scan that is over and found no blocked thread has passed all of its queue. -/
theorem Inv.woken_of_done {elem : Node Q E}
    (hc : s.caller a = .scanning call elem []) (helem : elem = .head call.queue) : Woken s call := by
  obtain ⟨-, done, rest, hring, hfirst, hdone⟩ := h.scan a call elem [] hc
  have hrest : rest = [] := by
    rw [helem] at hfirst
    cases rest with
    | nil => rfl
    | cons e rest => cases hfirst
  rw [hrest, append_nil] at hring
  intro scan hscan u n hn
  rcases h.seen a call (by rw [hc]; rfl) scan hscan u n hn with hu | ⟨hw, e, he, hq⟩
  · exact hu
  · have hthread := h.listed.thread u e he
    have hmem : e ∈ done := by
      rw [← hring, h.listed.mem_ring, hthread]
      exact ⟨he, hq⟩
    have hun := hdone e hmem
    rw [hthread] at hun
    exact .inr ⟨hw.symm, .inl hun⟩

variable [DecidableEq A]

/-- What the calls of all callers have seen, after one of them moved. -/
theorem Inv.seen_moved {p : Caller T Q C E} (hkeep : ∀ call, Seen s call → Seen s' call)
    (hp : ∀ call, p.call = some call → Seen s' call) :
    ∀ b call, (update s.caller a p b).call = some call → Seen s' call :=
  (forall_update_iff s.caller fun _ p => ∀ call, p.call = some call → Seen s' call).2
    ⟨hp, fun b _ call hc => hkeep call (h.seen b call hc)⟩

variable [DecidableEq Q]

theorem Inv.beginScan (hc : s.caller a = .batch call) (hfree : s.qlock call.queue = none) :
    Inv (({ s with qlock := update s.qlock call.queue (some a) } :
      System T Q C E A).setCaller a (.scanning { call with scans := present s call.queue :: call.scans }
        (s.lists.links.next (.head call.queue)) [])) ring := by
  refine ⟨h.listed, h.proto.caller_only (fun _ _ _ hx => hx) (fun _ _ hu => hu) nofun (by rw [hc]; rfl) nofun nofun rfl,
    ?_, ?_, h.woken⟩
  · intro b call' elem threads hb
    simp only [System.setCaller] at hb
    by_cases hba : b = a
    · subst hba
      rw [update_self] at hb
      cases hb
      refine ⟨update_self .., [], ring call.queue, rfl, ?_, nofun⟩
      rw [← headD_eq_first]
      exact (h.listed.rings.ring call.queue).next_head
    · rw [update_of_ne hba] at hb
      obtain ⟨hq, hrest⟩ := h.scan b call' elem threads hb
      refine ⟨?_, hrest⟩
      have hne : call'.queue ≠ call.queue := by
        intro heq
        rw [heq, hfree] at hq
        cases hq
      simp only [System.setCaller, update_of_ne hne]
      exact hq
  · refine h.seen_moved (fun _ => id) fun call' hcall => ?_
    cases hcall
    intro scan hscan u n hn
    rcases mem_cons.1 hscan with rfl | hscan
    · unfold present at hn
      split at hn
      · rename_i he
        exact .inr ⟨some.inj hn, he⟩
      · cases hn
    · exact h.seen a call (by rw [hc]; rfl) scan hscan u n hn

theorem Inv.endScan {elem : Node Q E} (hc : s.caller a = .scanning call elem threads)
    (hdone : elem = .head call.queue ∨ threads.length = min call.amount threadsPerBatch) :
    Inv (endScan s a call threads) ring := by
  have hproto := h.proto.endScan hc
  obtain ⟨hheld, -⟩ := h.scan a call elem threads hc
  -- The lock of the queue goes; the other scans hold other locks.
  have hlock : ∀ b ≠ a, ∀ q, s.qlock q = some b → update s.qlock call.queue none q = some b := by
    intro b hb q hq
    have hne : q ≠ call.queue := by
      rintro rfl
      rw [hheld] at hq
      exact hb (some.inj hq).symm
    rw [update_of_ne hne]
    exact hq
  have hkeeps : ∀ u, (s.thread u).Keeps (s.thread u) (s.lists.entries u) := fun u => .refl _ _
  unfold Wait.endScan at hproto ⊢
  split
  · rename_i hnil
    subst hnil
    refine ⟨h.listed, hproto, fun b => ?_, h.seen_moved (fun _ => id) nofun, fun call' hc' hamount => ?_⟩
    · by_cases hba : b = a
      · intro call' elem' threads' hb
        simp [System.setCaller, hba] at hb
      · exact (h.scan b).keeps hkeeps h.listed (update_of_ne hba _ _) (hlock b hba) rfl
    · rcases mem_cons.1 hc' with rfl | hc'
      · refine h.woken_of_done hc (hdone.resolve_right fun hlen => hamount ?_)
        simp only [length_nil, threadsPerBatch] at hlen
        omega
      · exact h.woken call' hc' hamount
  · rename_i hnil
    rw [if_neg hnil] at hproto
    refine ⟨h.listed, hproto, fun b => ?_, h.seen_moved (fun _ => id) fun call' hcall => ?_, h.woken⟩
    · by_cases hba : b = a
      · intro call' elem' threads' hb
        simp [System.setCaller, hba] at hb
      · exact (h.scan b).keeps hkeeps h.listed (update_of_ne hba _ _) (hlock b hba) rfl
    · exact h.seen a call' (by rw [hc]; exact hcall)

variable [DecidableEq T] [DecidableEq E]

/-- A turn of a scan: the thread of the entry becomes unblocking. If it was
blocked, the entry goes. -/
theorem Inv.scanEntry {e : E}
    (hc : s.caller a = .scanning call (.entry e) threads) : ∃ ring', Inv (scanEntry s a call e threads) ring' := by
  obtain ⟨hheld, done, rest, hring, hfirst, hdone⟩ := h.scan a call _ threads hc
  obtain ⟨rest', rfl⟩ : ∃ rest', rest = e :: rest' := by
    cases rest with
    | nil => cases hfirst
    | cons e' rest' => exact ⟨rest', by rw [Node.entry.inj hfirst]⟩
  have hmem : e ∈ ring call.queue := by rw [hring]; simp
  obtain ⟨hent, hqueue⟩ := (h.listed.mem_ring _ e).1 hmem
  have hproto := h.proto.scanEntry h.listed hc hmem
  have hnext : s.lists.links.next (.entry e) = first call.queue rest' := by
    have hr := h.listed.rings.ring call.queue
    rw [hring, map_append, map_cons] at hr
    rw [hr.next_mid, headD_eq_first]
  have hkeeps : ∀ u, (s.thread u).Keeps ((s.setThread (s.lists.entry e).thread fun th =>
      { th with state := .UNBLOCKING }).thread u) (s.lists.entries u) :=
    keeps_update rfl (.of_unblocking rfl rfl)
  have hun : ∀ e' ∈ done ++ [e], ((s.setThread (s.lists.entry e).thread fun th =>
      { th with state := .UNBLOCKING }).thread (s.lists.entry e').thread).state = .UNBLOCKING := by
    intro e' he'
    simp only [System.setThread]
    by_cases heq : (s.lists.entry e').thread = (s.lists.entry e).thread
    · rw [heq, update_self]
    · rw [update_of_ne heq]
      rcases mem_append.1 he' with he' | he'
      · exact hdone e' he'
      · exact absurd (by rw [mem_singleton.1 he']) heq
  unfold Wait.scanEntry at hproto ⊢
  dsimp only at hproto ⊢
  split
  · rename_i hb
    rw [if_pos hb] at hproto
    have hlist := h.listed.remove hent (hqueue ▸ hring)
    have hseen : ∀ call', Seen s call' → Seen (({ s.setThread (s.lists.entry e).thread fun th =>
        { th with state := .UNBLOCKING } with lists := s.lists.remove e } : System T Q C E A).setCaller a
          (.scanning call (s.lists.links.next (.entry e)) (threads ++ [(s.lists.entry e).thread]))) call' := by
      intro call' hold scan hscan u n hn
      rcases hold scan hscan u n hn with hu | ⟨hw, e', he', hq⟩
      · exact .inl ((hkeeps u).passed_of hu)
      · by_cases hee : e' = e
        · subst hee
          have hu := h.listed.thread u e' he'
          have hstate := hun e' (by simp)
          rw [hu] at hstate
          exact .inl (.inr ⟨hw.symm.trans (hkeeps u).waits.symm, .inl (by rw [hu]; exact hstate)⟩)
        · refine .inr ⟨(hkeeps u).waits.trans hw, e', ?_, hq⟩
          exact (h.listed.mem_entries_remove hent u e').2 ⟨he', hee⟩
    refine ⟨_, hlist, hproto, fun b => ?_, h.seen_moved hseen fun call' hcall => ?_, fun call' hc' hamount => ?_⟩
    · by_cases hba : b = a
      · subst hba
        intro call' elem threads' hb'
        simp only [System.setCaller, update_self] at hb'
        cases hb'
        refine ⟨hheld, done, rest', ?_, hnext, fun e' he' => hun e' (mem_append_left _ he')⟩
        rw [hqueue, update_self]
      · intro call' elem threads' hb'
        simp only [System.setCaller, update_of_ne hba] at hb'
        have hk : ScanOk (s.setThread (s.lists.entry e).thread fun th => { th with state := .UNBLOCKING }) ring b :=
          (h.scan b).keeps hkeeps h.listed rfl (fun _ hq => hq) rfl
        obtain ⟨hq, done', rest'', hring', helem, hdone'⟩ := hk call' elem threads' hb'
        have hne : call'.queue ≠ (s.lists.entry e).queue := by
          intro heq
          rw [heq, hqueue] at hq
          exact hba (some.inj (hq.symm.trans hheld))
        refine ⟨hq, done', rest'', ?_, helem, hdone'⟩
        rw [update_of_ne hne]
        exact hring'
    · exact hseen call' (h.seen a call' (by rw [hc]; exact hcall))
    · exact (h.woken call' hc' hamount).keeps hkeeps
  · rename_i hb
    rw [if_neg hb] at hproto
    refine ⟨ring, h.listed, hproto, fun b => ?_, h.seen_moved (fun _ hold => hold.keeps hkeeps rfl) fun call' hcall => ?_,
      fun call' hc' hamount => ?_⟩
    · by_cases hba : b = a
      · subst hba
        intro call' elem threads' hb'
        simp only [System.setCaller, update_self] at hb'
        cases hb'
        exact ⟨hheld, done ++ [e], rest', by rw [hring]; simp, hnext, hun⟩
      · exact (h.scan b).keeps hkeeps h.listed (update_of_ne hba _ _) (fun _ hq => hq) rfl
    · exact (h.seen a call' (by rw [hc]; exact hcall)).keeps hkeeps rfl
    · exact (h.woken call' hc' hamount).keeps hkeeps

/-! ## The other steps of the callers -/

variable [DecidableEq C]

theorem Inv.proceed {uptime : Nat} (hs : proceed s a uptime = some s') : ∃ ring', Inv s' ring' := by
  have hok := h.proto.caller a
  unfold Wait.proceed at hs
  cases hc : s.caller a <;> simp only [hc, reduceCtorEq] at hs
  case batch call =>
    split at hs
    · rename_i hfree
      cases hs
      exact ⟨ring, h.beginScan hc hfree⟩
    · cases hs
  case scanning call elem threads =>
    simp only [wait_unblock_scan] at hs
    cases elem with
    | head q =>
      simp only at hs
      split at hs
      · rename_i hq
        cases hs
        exact ⟨ring, h.endScan hc (.inl (by rw [hq]))⟩
      · cases hs
    | entry e =>
      simp only at hs
      split at hs
      · rename_i hlen
        cases hs
        exact ⟨ring, h.endScan hc (.inr hlen)⟩
      · cases hs
        exact h.scanEntry hc
  case unblocking duty threads =>
    refine ⟨ring, h.quiet ?_⟩
    cases threads with
    | cons t rest => exact h.proto.lockOwner hc hs
    | nil =>
      cases duty with
      | unblock call =>
        cases hs
        refine h.proto.caller_quiet (fun _ _ _ hx => hx) (by rintro _ ⟨⟩) (by rw [hc]; rfl) (by rintro _ ⟨⟩)
          (by rintro _ ⟨⟩) rfl ⟨by rintro _ _ _ ⟨⟩, ?_⟩
        exact fun call' hcall => .inl (by rw [hc]; exact hcall)
      | note | timeouts =>
        cases hs
        exact h.proto.caller_quiet (fun _ _ _ hx => hx) (by rintro _ ⟨⟩) (by rw [hc]; rfl) (by rintro _ ⟨⟩)
          (by rintro _ ⟨⟩) rfl (.of_none rfl)
  case removing duty c t rest =>
    split at hs
    · rename_i hent
      refine ⟨ring, h.quiet ?_⟩
      cases duty with
      | unblock call =>
        cases hs
        exact h.proto.removingDone hc hent (by rintro ⟨⟩)
          ⟨by rintro _ _ _ ⟨⟩, fun call' hcall => .inl (by rw [hc]; exact hcall)⟩
      | note =>
        cases hs
        exact h.proto.removingDone hc hent (by rintro ⟨⟩) (.of_none rfl)
      | timeouts =>
        cases hs
        have hothers := hok.others
        rw [hc] at hothers
        refine h.proto.caller_quiet (fun _ _ _ hx => hx) (fun c' hc' => hok.lock c' (by rw [hc]; exact hc'))
          (by rw [hc]; rfl) (fun u hu => hok.current u (by rw [hc]; exact hu)) ?_ hothers (.of_none rfl)
        intro u hu
        cases hu
        exact hent
    · exact h.removeFirst (hok.owned t (by rw [hc]; simp [Caller.owned])).2 hs
  case submitting duty c t rest =>
    refine ⟨ring, h.quiet ?_⟩
    cases duty with
    | unblock call =>
      cases hs
      exact h.proto.submit hc rfl (by rintro _ ⟨⟩) rfl rfl rfl
        ⟨by rintro _ _ _ ⟨⟩, fun call' hcall => .inl (by rw [hc]; exact hcall)⟩
    | note =>
      cases hs
      exact h.proto.submit hc rfl (by rintro _ ⟨⟩) rfl rfl rfl (.of_none rfl)
    | timeouts =>
      cases hs
      have hothers := hok.others
      rw [hc] at hothers
      exact h.proto.submit hc hothers.symm (fun c' hc' => hok.lock c' (by rw [hc]; exact hc')) rfl rfl rfl (.of_none rfl)
  case checking c =>
    cases hs
    exact ⟨ring, h.quiet (h.proto.checkTimeouts hc uptime)⟩

end

/-! ## Runs -/

variable [DecidableEq T] [DecidableEq Q] [DecidableEq E]

/-- `wait_block_prepare` runs out of memory. -/
def prepareFails (s : System T Q C E A) (t : T) (waitQueues : List Q) (answers : List (Option E)) : Bool :=
  match enqueueAll s.lists t waitQueues answers with
  | some (_, false) => true
  | _ => false

/-- A `wait_block_prepare` that runs out of memory does so before it has linked
an entry. -/
def Careful (s : System T Q C E A) : Action T Q C E A → Prop
  | .prepare t waitQueues answers _ _ =>
    prepareFails s t waitQueues answers = true → answers.head? = some none
  | _ => True

instance (s : System T Q C E A) (act : Action T Q C E A) : Decidable (Careful s act) := by
  cases act <;> unfold Careful <;> infer_instance

theorem Inv.prepare (h : Inv s ring) (hp : (s.thread t).place = .running) {waitQueues : List Q} {timeout uptime : Nat}
    (hok : prepareFails s t waitQueues answers = true → answers.head? = some none)
    (hs : wait_block_prepare s t waitQueues answers timeout uptime = some s') : ∃ ring', Inv s' ring' := by
  unfold wait_block_prepare at hs
  split_ifs at hs with hnil hlock
  · cases hs
    exact ⟨ring, h⟩
  · obtain ⟨⟨l, ok⟩, hl, hs⟩ := map_eq_some_iff.1 hs
    cases ok with
    | true =>
      rw [← hs]
      exact h.enqueue hp hl hlock.2 _
    | false =>
      -- The first allocation fails, and there is nothing to pop.
      have hhead := hok (by simp [prepareFails, hl])
      have hent := (h.proto.thread t).entries (by rw [hp]; rfl)
      have hsame : l = s.lists := by
        cases waitQueues with
        | nil => exact absurd rfl hnil
        | cons q qs =>
          cases answers with
          | nil => cases hhead
          | cons answer answers =>
            cases hhead
            rw [← (Prod.mk.inj (some.inj hl)).1]
            exact popAll_of_nil hent
      rw [← hs, hsame]
      exact ⟨ring, h⟩

variable [DecidableEq C] [DecidableEq A]

theorem inv_step {act : Action T Q C E A} (h : ∃ ring, Inv s ring) (hok : Careful s act)
    (hs : step s act = some s') : ∃ ring, Inv s' ring := by
  obtain ⟨ring, h⟩ := h
  have hidle : ∀ {a : A}, (s.caller a).isIdle = true → s.caller a = .idle := by
    intro a ha
    cases hc : s.caller a with
    | idle => rfl
    | _ => simp [hc, Caller.isIdle] at ha
  cases act <;> simp only [step, ite_none_right_eq_some] at hs
  case prepare t waitQueues answers timeout uptime => exact h.prepare hs.1 hok hs.2
  case commit t => exact ⟨ring, h.quiet (h.proto.commit hs.1 hs.2)⟩
  case cancel t =>
    obtain ⟨hp, hs⟩ := hs
    cases hs
    exact ⟨ring, h.quiet (h.proto.cancel hp)⟩
  case sched t c => exact ⟨ring, h.sched_do hs.1 hs.2⟩
  case advance t pending =>
    cases hp : (s.thread t).place <;> simp only [Wait.advance, hp, reduceCtorEq] at hs
    case enqueued => exact ⟨ring, h.quiet (h.proto.prepareExchange hp hs)⟩
    case finalizing c =>
      cases hs
      exact ⟨ring, h.quiet (h.proto.finalizeExchange hp)⟩
    case noting c =>
      cases hs
      exact ⟨ring, h.quiet (h.proto.finalizeNote hp pending)⟩
    case removing lock =>
      split at hs
      · rename_i hent
        cases hs
        exact ⟨ring, h.quiet (h.proto.removed hp hent)⟩
      · have hst := (h.proto.thread t).state
        simp only [Thread.StateOk, hp] at hst
        exact h.removeFirst hst hs
    case early =>
      cases hs
      have hent := (h.proto.thread t).entries (by rw [hp]; rfl)
      exact ⟨ring, h.quiet (h.proto.resume hp rfl hent)⟩
  case unblock a q amount err =>
    obtain ⟨ha, hs⟩ := hs
    cases hs
    refine ⟨ring, h.quiet (h.proto.caller_quiet (fun _ _ _ hx => hx) (by rintro _ ⟨⟩) (by rw [hidle ha]; rfl)
      (by rintro _ ⟨⟩) (by rintro _ ⟨⟩) rfl ⟨by rintro _ _ _ ⟨⟩, ?_⟩)⟩
    exact fun call hcall => .inr (by rw [← some.inj hcall])
  case note a t =>
    obtain ⟨ha, hs⟩ := hs
    split_ifs at hs with hb
    · cases hs
      exact ⟨ring, h.quiet ⟨h.proto.take_over hb (by rw [hidle ha]; rfl) rfl rfl rfl rfl,
        quiet_of_caller (.of_none rfl) (keeps_update (t := t) rfl (.of_unblocking rfl rfl))⟩⟩
    · cases hs
      exact ⟨ring, h⟩
  case timeouts a c =>
    obtain ⟨ha, hs⟩ := hs
    cases hs
    refine ⟨ring, h.quiet (h.proto.caller_quiet (fun c' x _ => wlock_acquire ha.2 c' x) ?_
      (by rw [hidle ha.1]; rfl) (by rintro _ ⟨⟩) (by rintro _ ⟨⟩) rfl (.of_none rfl))⟩
    intro c' hc'
    rw [← some.inj hc']
    exact update_self ..
  case proceed a uptime => exact h.proceed hs

/-- In every interleaving of threads, callers, timeouts and notes, if no
`wait_block_prepare` runs out of memory after it has linked an entry, a blocked
thread is submitted at most once, by the one caller that took it over, and no
wake-up is lost. -/
theorem wakeups_safe (memory : E → wait_entry_t T Q) (acts : List (Action T Q C E A))
    (h : Along step Careful (init memory : System T Q C E A) acts) :
    Always step Safe (init memory : System T Q C E A) acts := by
  have hinv := Along.always (I := fun s => ∃ ring, Inv s ring) (fun _ _ _ => inv_step) ⟨_, inv_init memory⟩ h
  refine hinv.mono ?_
  rintro s ⟨ring, hs⟩
  exact hs.safe

/-- A thread waits on two queues, blocks, and is woken through the second. -/
def wakeBoth : List (Action Bool (Fin 2) Unit (Fin 4) Unit) :=
  [.prepare true [0, 1] [some 0, some 1] CLOCKS_NEVER 0, .advance true false, .commit true, .sched true (),
    .advance true false, .advance true false, .unblock () 1 WAIT_ALL .EOK, .proceed () 0, .proceed () 0,
    .proceed () 0, .proceed () 0, .proceed () 0, .proceed () 0, .proceed () 0, .proceed () 0, .proceed () 0,
    .proceed () 0]

theorem wakeBoth_safe :
    Along step Careful (init fun _ => ⟨true, 0⟩) wakeBoth ∧ Always step Safe (init fun _ => ⟨true, 0⟩) wakeBoth :=
  have h : Along step Careful (init fun _ => ⟨true, 0⟩) wakeBoth := by decide +kernel
  ⟨h, wakeups_safe _ wakeBoth h⟩

/-- Thread `0` runs out of memory for its second queue and leaves the entry `0` in
the first. Thread `1` blocks on the first queue. Thread `2` gets the entry `0` to
wait on the first queue, and the queue is then scanned for all threads. -/
def entryReused : List (Action (Fin 3) (Fin 2) Unit (Fin 2) Unit) :=
  [.prepare 0 [0, 1] [some 0, none] CLOCKS_NEVER 0,
    .prepare 1 [0] [some 1] CLOCKS_NEVER 0, .advance 1 false, .commit 1, .sched 1 (), .advance 1 false,
    .advance 1 false,
    .prepare 2 [0] [some 0] CLOCKS_NEVER 0, .advance 2 false,
    .unblock () 0 WAIT_ALL .EOK, .proceed () 0, .proceed () 0, .proceed () 0]

/-- The call returns, and thread `1` is still blocked in its first wait. -/
theorem entryReused_not_safe :
    (run step (init fun _ => ⟨0, 0⟩) entryReused).map (fun s =>
        ((s.thread 1).state, (s.thread 1).waits, s.returned.map fun call => (call.amount, call.scans.map (· 1)))) =
        some (.BLOCKED, 1, [(WAIT_ALL, [some 1])]) ∧
      ¬ Always step Safe (init fun _ => ⟨0, 0⟩) entryReused := by
  refine ⟨by decide +kernel, not_always (fun s => (s.thread 1).state = .BLOCKED ∧ (s.thread 1).waits = 1 ∧
    ∃ call ∈ s.returned, call.amount = WAIT_ALL ∧ ∃ scan ∈ call.scans, scan 1 = some 1) (by decide +kernel) ?_⟩
  rintro s ⟨hstate, hwaits, call, hcall, hamount, scan, hmem, hone⟩ h
  refine h.woken call hcall ?_ scan hmem 1 1 hone ⟨hstate, hwaits⟩
  rw [hamount]
  decide

end Patchwork.Wait
