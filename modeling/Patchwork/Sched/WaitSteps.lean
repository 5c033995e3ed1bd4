import Patchwork.Sched.WaitProtocol
/-!
# The steps of the blocking protocol

Every step of a thread and of a caller keeps the protocol. The steps that touch
the lists of the wait entries rely on what is known about those: the owner of an
entry, and that a thread with an entry is waiting.
-/

namespace Patchwork.Wait

open List Function Lib Utils

variable {T Q C E A : Type} {s s' : System T Q C E A} {t : T} {a : A} {c : C} {ring : Q → List E}

/-! ## The thread that blocks -/

variable {l : Lists T Q E} {e : E} {p : Caller T Q C E} {duty : Duty T Q} {rest : List T} {o : Place C}

/-- A place without a lock and not off the CPU. -/
def Place.calm : Place C → Bool
  | .finalizing _ | .noting _ | .removing (some _) | .left => false
  | _ => true

theorem Place.calm_spec {p : Place C} (h : p.calm = true) : p.lock = none ∧ p.cpu = none ∧ p.off = false := by
  cases p with
  | finalizing | noting | left => cases h
  | removing lock =>
    cases lock with
    | none => exact ⟨rfl, rfl, rfl⟩
    | some => cases h
  | _ => exact ⟨rfl, rfl, rfl⟩

section
variable (h : Proto s) [DecidableEq T]
include h

section
variable {th : Thread C} (hp : (s.thread t).place = o) (hcalm : o.calm = true)
    (hcalm' : th.place.calm = true) (hstate : th.StateOk) (hsub : th.submits = (s.thread t).submits)
include hp hcalm hcalm' hstate hsub

theorem Proto.calm_step (hentries : ∀ u ≠ t, l.entries u = s.lists.entries u)
    (hout : th.place.out = true → l.entries t = []) :
    Proto (s.moved t th l s.wlock s.blockedThreads) := by
  obtain ⟨hlock, -, hoff⟩ := Place.calm_spec hcalm
  rw [← hp] at hlock hoff
  obtain ⟨hlock', hcpu', hoff'⟩ := Place.calm_spec hcalm'
  refine h.thread_step hentries (fun _ _ _ hx => hx) (fun _ _ hu _ => hu) ?_
    (fun c hmem => absurd hmem (h.not_blocked hlock hoff c)) (fun a ha => absurd ha (h.not_owned (.inl hoff) a)) ?_
  · refine threadOk_of_eq (update_self ..) hstate hout ?_ ?_ (hsub ▸ (h.thread t).submits) ?_
    · rw [hlock']
      nofun
    · rw [hcpu']
      nofun
    · rw [hoff']
      nofun
  · rw [hoff']
    nofun

theorem Proto.calm (hout : th.place.out = true → s.lists.entries t = []) (hk : (s.thread t).Keeps th (s.lists.entries t)) :
    Kept s (s.moved t th s.lists s.wlock s.blockedThreads) :=
  ⟨h.calm_step hp hcalm hcalm' hstate hsub (fun _ _ => rfl) hout, quiet_moved hk⟩

end

theorem Proto.prepare (hp : (s.thread t).place = .running) {deadline : Nat}
    (hl : ∀ u ≠ t, l.entries u = s.lists.entries u) :
    Proto (({ s with lists := l } : System T Q C E A).setThread t fun th =>
      { th with place := .enqueued, err := .EOK, deadline := deadline, owner := none, waits := th.waits + 1 }) := by
  have hst := (h.thread t).state
  simp only [Thread.StateOk, hp] at hst
  exact h.calm_step hp rfl rfl (.inl hst) rfl hl (by rintro ⟨⟩)

theorem Proto.prepareExchange (hp : (s.thread t).place = .enqueued)
    (hs : prepareExchange s t = some s') : Kept s s' := by
  unfold Wait.prepareExchange at hs
  split at hs
  · rename_i hact
    cases hs
    exact h.calm hp rfl rfl (.inl rfl) rfl nofun (.of_waiting rfl (by rw [hact]; nofun) hp rfl)
  · rename_i hun
    cases hs
    exact h.calm hp rfl rfl (.inr hun) rfl nofun (.of_unblocking rfl hun)
  · cases hs

theorem Proto.cancel (hp : (s.thread t).place = .prepared) : Kept s (wait_block_cancel s t) :=
  h.calm hp rfl rfl rfl rfl nofun (.of_unblocking rfl rfl)

theorem Proto.commit (hp : (s.thread t).place = .prepared) (hs : wait_block_commit s t = some s') : Kept s s' := by
  unfold wait_block_commit at hs
  split at hs
  · rename_i hun
    cases hs
    exact h.calm hp rfl rfl hun rfl nofun (.of_unblocking rfl hun)
  · rename_i hpre
    cases hs
    exact h.calm hp rfl rfl (.inl hpre) rfl nofun (.of_same rfl rfl hp rfl)
  · cases hs

theorem Proto.resume (hp : (s.thread t).place = o) (hcalm : o.calm = true) (hent : s.lists.entries t = []) :
    Kept s (s.setThread t fun th => { th with state := .ACTIVE, place := .running }) :=
  h.calm hp hcalm rfl rfl rfl (fun _ => hent) (.of_out rfl hent rfl)

theorem Proto.finalizeExchange (hp : (s.thread t).place = .finalizing c) : Kept s (finalizeExchange s t c) := by
  have hok := h.thread t
  have hst := hok.state
  simp only [Thread.StateOk, hp] at hst
  have hlock : ∀ c', some c = some c' → s.wlock c' = some (.inl t) := by
    intro c' hc'
    exact hok.lock c' (by rw [hp]; exact hc')
  have howner := hok.owner c (by rw [hp]; rfl)
  have hnot := h.not_owned (t := t) (.inl (by rw [hp]; rfl))
  unfold Wait.finalizeExchange
  split
  · rename_i hpre
    refine h.free_step hnot (fun _ _ _ hx => hx) (fun _ _ hu _ => hu) ?_ ?_ (by rintro _ ⟨⟩)
      (.of_waiting rfl (by rw [hpre]; rintro ⟨⟩) hp rfl)
    · refine threadOk_of_eq (update_self ..) (.inl rfl) (by rintro ⟨⟩) hlock ?_ (Nat.zero_le 1) fun _ => rfl
      intro c' hc'
      exact howner.trans hc'
    · intro c' hmem
      obtain ⟨ho, -⟩ := h.blocked c' t hmem
      obtain rfl := Option.some.inj (ho.symm.trans howner)
      exact ⟨ho, .inr (.inl rfl)⟩
  · rename_i hpre
    have hun := hst.resolve_left hpre
    refine h.free_step hnot (fun _ _ _ hx => hx) (fun _ _ hu _ => (mem_removeBlocked hu).1) ?_ ?_ (by rintro ⟨⟩)
      (.of_unblocking rfl hun)
    · exact threadOk_of_eq (update_self ..) hun (by rintro ⟨⟩) hlock (by rintro _ ⟨⟩) hok.submits (by rintro ⟨⟩)
    · intro c' hmem
      exact absurd rfl (mem_removeBlocked hmem).2

variable [DecidableEq C]

/-- The scheduler begins to finalize a thread: its place becomes one with a lock. -/
theorem Proto.finalize (hp : (s.thread t).place = .committed)
    (hs : wait_block_finalize s t c = some s') : Kept s s' := by
  have hst := (h.thread t).state
  simp only [Thread.StateOk, hp] at hst
  have hnot := h.not_blocked (t := t) (by rw [hp]; rfl) (by rw [hp]; rfl)
  unfold wait_block_finalize at hs
  split at hs
  · rename_i hfree
    cases hs
    refine h.free_step (t := t) (h.not_owned (.inl (by rw [hp]; rfl))) (fun c' x _ => wlock_acquire hfree c' x) ?_ ?_ ?_
      (by rintro ⟨⟩) (.of_same rfl rfl hp rfl)
    · intro c' u hu hut
      by_cases hc : c' = c
      · subst hc
        rw [update_self] at hu
        exact (mem_insertBlocked hu).resolve_left hut
      · rw [update_of_ne hc] at hu
        exact hu
    · refine threadOk_of_eq (update_self ..) hst (by rintro ⟨⟩) ?_ (fun _ hc' => hc') (h.thread t).submits (by rintro ⟨⟩)
      intro c' hc'
      rw [← Option.some.inj hc']
      exact update_self ..
    · intro c' hmem
      by_cases hc : c' = c
      · exact hc ▸ ⟨rfl, .inl rfl⟩
      · rw [update_of_ne hc] at hmem
        exact absurd hmem (hnot c')
  · cases hs

theorem Proto.finalizeNote (hp : (s.thread t).place = .noting c) (pending : Bool) :
    Kept s (finalizeNote s t c pending) := by
  have hok := h.thread t
  have hst := hok.state
  simp only [Thread.StateOk, hp] at hst
  have hlock : ∀ c', some c = some c' → s.wlock c' = some (.inl t) := by
    intro c' hc'
    exact hok.lock c' (by rw [hp]; exact hc')
  unfold Wait.finalizeNote
  split
  · rename_i hb
    -- The thread is blocked, so no caller has taken it over.
    refine h.free_step (h.not_owned (t := t) (.inr (by rw [hb.2]; rintro ⟨⟩))) (fun _ _ _ hx => hx)
      (fun _ _ hu _ => (mem_removeBlocked hu).1) ?_ ?_ (by rintro ⟨⟩) (.of_unblocking rfl rfl)
    · exact threadOk_of_eq (update_self ..) rfl (by rintro ⟨⟩) hlock (by rintro _ ⟨⟩) hok.submits (by rintro ⟨⟩)
    · intro c' hmem
      exact absurd rfl (mem_removeBlocked hmem).2
  · refine ⟨h.thread_step (t := t) (fun _ _ => rfl) (fun c' x hx => wlock_release (hlock c rfl) c' x hx)
      (fun _ _ hu _ => hu) ?_ ?_ ?_ ?_, quiet_moved (.of_same rfl rfl hp rfl)⟩
    · exact threadOk_of_eq (update_self ..) hst (by rintro ⟨⟩) (by rintro _ ⟨⟩) (by rintro _ ⟨⟩) hok.submits
        fun _ => hok.fresh (by rw [hp]; rfl)
    · intro c' hmem
      exact ⟨(h.blocked c' t hmem).1, .inr (.inr rfl)⟩
    · intro a ha
      exact ⟨⟨rfl, ((h.caller a).owned t ha).2⟩, fun _ => rfl, id, fun _ => id⟩
    · exact fun _ hun => h.claimed t (by rw [hp]; rfl) hun

theorem Proto.removed {lock : Option C} (hp : (s.thread t).place = .removing lock)
    (hent : s.lists.entries t = []) : Kept s (removed s t lock) := by
  have hok := h.thread t
  cases lock with
  | none => exact h.resume hp rfl hent
  | some c =>
    have hlock := hok.lock c (by rw [hp]; rfl)
    refine h.free_step (t := t) (h.not_owned (.inl (by rw [hp]; rfl))) (fun c' x hx => wlock_release hlock c' x hx)
      (fun _ _ hu _ => hu) ?_ ?_ nofun (.of_out rfl hent rfl)
    · exact threadOk_of_eq (update_self ..) rfl (fun _ => hent) nofun nofun hok.submits nofun
    · intro c' hmem
      obtain ⟨-, hp'⟩ := h.blocked c' t hmem
      simp [hp] at hp'

end

/-! ## The callers that wake threads -/

section
variable (h : Proto s)
include h

/-- The entries of a thread that has some may change. -/
theorem Proto.lists_step
    (hl : ∀ u, l.entries u = s.lists.entries u ∨ s.lists.entries u ≠ []) : Proto { s with lists := l } := by
  have hnil : ∀ u, s.lists.entries u = [] → l.entries u = [] := by
    intro u hu
    rcases hl u with he | he
    · rw [he, hu]
    · exact absurd hu he
  refine ⟨fun u => ?_, h.blocked, fun b => ?_, h.alone, h.claimed⟩
  · have hok := h.thread u
    exact ⟨hok.state, fun hout => hnil u (hok.entries hout), hok.lock, hok.owner, hok.submits, hok.fresh⟩
  · exact (h.caller b).frame rfl (fun _ hc => hc) (fun u hu => ⟨(h.caller b).owned u hu, id, hnil u⟩)
      fun _ _ _ => id

/-- With the lock of its CPU in hand, a thread that was taken over has left. -/
theorem Proto.left_of_unlocked (hmem : t ∈ (s.caller a).owned) (ho : (s.thread t).owner = some c)
    (hlock : s.wlock c ≠ some (.inl t)) : (s.thread t).place = .left := by
  have hoff := ((h.caller a).owned t hmem).1
  cases hp : (s.thread t).place with
  | left => rfl
  | noting c' =>
    have howner := (h.thread t).owner c' (by rw [hp]; rfl)
    obtain rfl := Option.some.inj (howner.symm.trans ho)
    exact absurd ((h.thread t).lock c' (by rw [hp]; rfl)) hlock
  | _ => simp [hp, Place.off] at hoff

theorem Proto.endScan [DecidableEq Q] [DecidableEq A] {call : Call T Q} {elem : Node Q E} {threads : List T}
    (hc : s.caller a = .scanning call elem threads) : Proto (endScan s a call threads) := by
  unfold Wait.endScan
  split
  · rename_i hnil
    exact h.caller_only (fun _ _ _ hx => hx) (fun _ _ hu => hu) nofun (by rw [hc, hnil]; rfl) nofun
      nofun rfl
  · exact h.caller_only (fun _ _ _ hx => hx) (fun _ _ hu => hu) nofun (by rw [hc]; rfl) nofun nofun rfl

/-- The entries of the thread are removed, and `wait_unblock` or `thread_send_note` unlocks its CPU. -/
theorem Proto.removingDone [DecidableEq C] [DecidableEq A] (hc : s.caller a = .removing duty c t rest)
    (hent : s.lists.entries t = []) (hduty : duty ≠ .timeouts) (hf : (s.caller a).Follows (.submitting duty c t rest)) :
    Kept s ((s.lockCpu c none).setCaller a (.submitting duty c t rest)) := by
  have hok := h.caller a
  have hlock := hok.lock c (by rw [hc]; rfl)
  refine h.caller_quiet (fun c' x hx => wlock_release hlock c' x hx) ?_ (by rw [hc]; rfl)
    (fun u hu => hok.current u (by rw [hc]; exact hu)) ?_ ?_ hf
  · cases duty with
    | timeouts => exact absurd rfl hduty
    | _ => exact nofun
  · intro u hu
    cases hu
    exact hent
  · cases duty with
    | timeouts => exact absurd rfl hduty
    | _ => rfl

end

section
variable [DecidableEq T] [DecidableEq Q] [DecidableEq E]

theorem entries_remove_of_ne (h : Listed l ring) (he : e ∈ l.entries t) {u : T}
    (hu : u ≠ t) : (l.remove e).entries u = l.entries u := by
  simp only [Lists.remove, h.thread t e he, update_of_ne hu]

variable (h : Proto s)
include h

theorem Proto.remove (hlist : Listed s.lists ring) (he : e ∈ s.lists.entries t) :
    Proto { s with lists := s.lists.remove e } := by
  refine h.lists_step fun u => ?_
  by_cases hu : u = t
  · right
    rw [hu]
    exact ne_nil_of_mem he
  · exact .inl (entries_remove_of_ne hlist he hu)

theorem Proto.removeFirst (hlist : Listed s.lists ring) (hs : removeFirst s t = some s') : Proto s' := by
  unfold Wait.removeFirst at hs
  split at hs
  · cases hs
  · rename_i e rest he
    split at hs
    · cases hs
      exact h.remove hlist (t := t) (by rw [he]; exact mem_cons_self)
    · cases hs

end

section
variable (h : Proto s) [DecidableEq T] [DecidableEq A]
include h

theorem Proto.take_over (hb : (s.thread t).state = .BLOCKED)
    (howned : p.owned = (s.caller a).owned ++ [t]) (hlock : p.lock = none) (hcur : p.current = none)
    (hdr : p.drained = none) (hothers : p.others = []) :
    Proto ((s.setThread t fun th => { th with state := .UNBLOCKING }).setCaller a p) := by
  have hok := h.thread t
  have hnot := h.not_owned (t := t) (.inr (by rw [hb]; nofun))
  have hoff := hok.state.off hb
  refine h.caller_step (t := t) (fun _ _ _ hx => hx) (fun _ _ hu => hu) ?_ (fun c => h.blocked c t) (by rw [hlock]; nofun)
    ?_ (by rw [hcur]; nofun) hdr hothers ?_ (fun _ => ⟨⟨hoff, rfl⟩, .inr hnot⟩) ?_ (fun b _ hmem => absurd hmem (hnot b)) ?_
  · exact threadOk_of_eq (update_self ..) (.unblocking (out_of_off hoff)) hok.entries hok.lock
      hok.owner hok.submits hok.fresh
  · rw [howned, nodup_append]
    refine ⟨(h.caller a).nodup, nodup_singleton t, ?_⟩
    rintro u hu _ hu' rfl
    exact hnot a (mem_singleton.1 hu' ▸ hu)
  · intro u hu hut
    rw [howned] at hu
    exact (mem_append.1 hu).resolve_right fun hu => hut (mem_singleton.1 hu)
  · intro u hu
    rw [howned]
    exact .inl (mem_append_left _ hu)
  · intro _ _
    rw [howned]
    exact .inl (by simp)

/-- The exchange of a scan with a thread that is not blocked. -/
theorem Proto.exchange (hb : (s.thread t).state ≠ .BLOCKED)
    (hout : (s.thread t).place.out = false) (howned : p.owned = (s.caller a).owned) (hlock : p.lock = none)
    (hcur : p.current = none) (hdr : p.drained = none) (hothers : p.others = []) :
    Proto ((s.setThread t fun th => { th with state := .UNBLOCKING }).setCaller a p) := by
  have hok := h.thread t
  -- Off its CPU the thread is unblocking already.
  have hstate : (s.thread t).place.off = true → (s.thread t).state = .UNBLOCKING := by
    intro hoff
    have hst := hok.state
    cases hp : (s.thread t).place with
    | noting _ | left =>
      simp only [Thread.StateOk, hp] at hst
      exact hst.resolve_left hb
    | _ => simp [hp, Place.off] at hoff
  refine h.caller_step (t := t) (fun _ _ _ hx => hx) (fun _ _ hu => hu) ?_ (fun c => h.blocked c t)
    (by rw [hlock]; rintro _ ⟨⟩) (howned ▸ (h.caller a).nodup) (by rw [hcur]; rintro _ ⟨⟩) hdr hothers
    (fun u hu _ => howned ▸ hu) ?_ (fun u hu => .inl (howned ▸ hu)) (fun b _ _ => ⟨rfl, rfl⟩)
    fun hoff _ => .inr ⟨hoff, hstate hoff⟩
  · exact threadOk_of_eq (update_self ..) (.unblocking hout) hok.entries hok.lock hok.owner
      hok.submits hok.fresh
  · intro hu
    rw [howned] at hu
    exact ⟨⟨((h.caller a).owned t hu).1, rfl⟩, .inl hu⟩

theorem Proto.submit (hc : s.caller a = .submitting duty c t rest) (howned : p.owned = rest)
    (hlock : ∀ c', p.lock = some c' → s.wlock c' = some (.inr a)) (hcur : p.current = none)
    (hdr : p.drained = none) (hothers : p.others = []) (hp : (s.caller a).Follows p) :
    Kept s ((sched_submit s t).setCaller a p) := by
  have howned' : (s.caller a).owned = t :: rest := by rw [hc]; rfl
  have hmem : t ∈ (s.caller a).owned := by rw [howned']; exact mem_cons_self
  have hnd := (h.caller a).nodup
  rw [howned', nodup_cons] at hnd
  obtain ⟨hleft, hnotin⟩ := (h.caller a).current t (by rw [hc]; rfl)
  have hent := (h.caller a).drained t (by rw [hc]; rfl)
  have hfresh := (h.thread t).fresh (by rw [hleft]; rfl)
  refine ⟨h.caller_step (t := t) (fun _ _ _ hx => hx) (fun _ _ hu => hu) ?_ (fun c' hmem' => absurd hmem' (hnotin c'))
    hlock (howned ▸ hnd.2) (by rw [hcur]; nofun) hdr hothers ?_ (fun hu => absurd (howned ▸ hu) hnd.1) ?_
    (fun b hb hmem' => absurd (h.alone b a t hmem' hmem) hb) nofun,
    quiet_of_caller hp (keeps_update (t := t) rfl (.of_out rfl hent rfl))⟩
  · refine threadOk_of_eq (update_self ..) rfl (fun _ => hent) nofun nofun ?_ nofun
    exact Nat.le_of_eq (congrArg Nat.succ hfresh)
  · intro u hu _
    rw [howned', ← howned]
    exact mem_cons_of_mem _ hu
  · intro u hu
    rw [howned'] at hu
    rcases mem_cons.1 hu with rfl | hu
    · exact .inr ⟨rfl, rfl⟩
    · exact .inl (howned ▸ hu)

/-- The thread that `wait_check_timeouts` finds blocked has left: its CPU is locked. -/
theorem Proto.expire (hc : s.caller a = .checking c) (hmem : t ∈ s.blockedThreads c)
    (hb : (s.thread t).state = .BLOCKED) :
    Proto (((s.removeBlocked t).setThread t fun th =>
      { th with state := .UNBLOCKING, err := .ETIMEDOUT }).setCaller a (.removing .timeouts c t [])) := by
  have hok := h.thread t
  have hnot := h.not_owned (t := t) (.inr (by rw [hb]; nofun))
  have hlock := (h.caller a).lock c (by rw [hc]; rfl)
  have hleft : (s.thread t).place = .left := by
    have hst := hok.state
    obtain ⟨-, hp | hp | hp⟩ := h.blocked c t hmem
    · simp [Thread.StateOk, hp, hb] at hst
    · have hheld := hok.lock c (by rw [hp]; rfl)
      rw [hlock] at hheld
      cases hheld
    · exact hp
  refine h.caller_step (t := t) (fun _ _ _ hx => hx) (fun _ _ hu => (mem_removeBlocked hu).1) ?_
    (fun c' hmem' => absurd rfl (mem_removeBlocked hmem').2) ?_ (nodup_singleton t) ?_ rfl rfl
    (fun u hu hut => absurd (mem_singleton.1 hu) hut) (fun _ => ⟨⟨hok.state.off hb, rfl⟩, .inr hnot⟩) ?_
    (fun b _ hmem' => absurd hmem' (hnot b)) fun _ _ => .inl mem_cons_self
  · exact threadOk_of_eq (update_self ..) (.unblocking (out_of_off (hok.state.off hb))) hok.entries
      hok.lock hok.owner hok.submits hok.fresh
  · intro c' hc'
    rw [← Option.some.inj hc']
    exact hlock
  · intro u hu
    cases hu
    exact ⟨rfl, hleft, fun c' hc' => (mem_removeBlocked hc').2 rfl⟩
  · intro u hu
    rw [hc] at hu
    cases hu

theorem Proto.scanEntry [DecidableEq Q] [DecidableEq E] (hlist : Listed s.lists ring) {call : Call T Q}
    {threads : List T} (hc : s.caller a = .scanning call (.entry e) threads) (he : e ∈ ring call.queue) :
    Proto (scanEntry s a call e threads) := by
  obtain ⟨hmem, -⟩ := (hlist.mem_ring _ e).1 he
  unfold Wait.scanEntry
  dsimp only
  split
  · rename_i hb
    refine (h.remove hlist hmem).take_over hb ?_ rfl rfl rfl rfl
    simp only [Caller.owned, hc]
  · rename_i hb
    refine h.exchange hb ?_ (by rw [hc]; rfl) rfl rfl rfl rfl
    by_contra hout
    rw [(h.thread _).entries (by simpa using hout)] at hmem
    cases hmem

variable [DecidableEq C]

theorem Proto.lockOwner (hc : s.caller a = .unblocking duty (t :: rest))
    (hs : lockOwner s a duty t rest = some s') : Kept s s' := by
  have hok := h.thread t
  have howned : (s.caller a).owned = t :: rest := by rw [hc]; rfl
  have hmem : t ∈ (s.caller a).owned := by rw [howned]; exact mem_cons_self
  obtain ⟨hoff, hun⟩ := (h.caller a).owned t hmem
  have hnd := (h.caller a).nodup
  rw [howned] at hnd
  unfold Wait.lockOwner at hs
  split at hs
  · cases hs
  · rename_i c ho
    split at hs
    · rename_i hfree
      cases hs
      have hleft := h.left_of_unlocked hmem ho (by rw [hfree]; nofun)
      refine ⟨h.caller_step (t := t) (fun c' x _ => wlock_acquire hfree c' x) (fun _ _ hu => (mem_removeBlocked hu).1)
        ?_ (fun c' hmem' => absurd rfl (mem_removeBlocked hmem').2) ?_ hnd ?_ rfl ?_
        (fun u hu _ => by rw [howned]; exact hu) (fun _ => ⟨⟨hoff, hun⟩, .inl hmem⟩) (fun u hu => .inl (howned ▸ hu :))
        (fun b hb hmem' => absurd (h.alone b a t hmem' hmem) hb) (fun _ _ => .inl mem_cons_self),
        quiet_of_caller ⟨nofun, ?_⟩ (keeps_update (t := t) rfl (.of_unblocking rfl hun))⟩
      · refine threadOk_of_eq (update_self ..) hok.state hok.entries ?_ hok.owner hok.submits hok.fresh
        intro c' (hc' : (s.thread t).place.lock = some c')
        rw [hleft] at hc'
        cases hc'
      · intro c' hc'
        rw [← Option.some.inj hc']
        exact update_self ..
      · intro u hu
        cases hu
        exact ⟨rfl, hleft, fun c' hc' => (mem_removeBlocked hc').2 rfl⟩
      · have hothers := (h.caller a).others
        rw [hc] at hothers
        cases duty with
        | timeouts => cases hothers
        | _ => rfl
      · intro call hcall
        rw [hc]
        cases duty with
        | unblock call' => exact .inl hcall
        | _ => cases hcall
    · cases hs

theorem Proto.checkTimeouts (hc : s.caller a = .checking c) (uptime : Nat) : Kept s (checkTimeouts s a c uptime) := by
  have hok := h.caller a
  have hlock := hok.lock c (by rw [hc]; rfl)
  have hidle : Kept s ((s.lockCpu c none).setCaller a .idle) :=
    h.caller_quiet (fun c' x hx => wlock_release hlock c' x hx) nofun (by rw [hc]; rfl) nofun nofun rfl (.of_none rfl)
  unfold Wait.checkTimeouts
  split
  · exact hidle
  · rename_i t rest hlist
    split_ifs with hdl hb
    · exact hidle
    · exact ⟨h.expire hc (by rw [hlist]; exact mem_cons_self) hb,
        quiet_of_caller (.of_none rfl) (keeps_update rfl (.of_unblocking rfl rfl))⟩
    · have hsame := h.caller_only (a := a) (p := s.caller a) (q := s.qlock) (r := s.returned) (fun _ _ _ hx => hx)
        (fun _ _ hu => (mem_removeBlocked (t := t) hu).1) hok.lock rfl hok.current hok.drained hok.others
      rw [update_eq_self] at hsame
      exact ⟨hsame, rfl, rfl, rfl, fun _ => .inl rfl, fun _ => .refl _ _⟩

end

end Patchwork.Wait
