import Patchwork.Lib.Agents
import Patchwork.Sched.Wait
/-!
# The blocking protocol

As long as no entry is freed while it is linked, every queue is a ring of exactly
those entries that the waiting threads have for it.

What the places of the threads and callers say about the states of the threads.
A thread that is off its CPU (`Place.off`) is blocked, or exactly one caller has
taken it over and will submit it. Whoever changes its state from blocked takes it
over, and the locks of the CPUs keep that caller from submitting the thread before
`wait_block_finalize` is done with it.

`Proto.thread_step` and `Proto.caller_step` say what has to be checked of a step
of a thread and of a caller; the rest of the system does not notice it.
-/

namespace Patchwork.Wait

open List Function Lib Utils

variable {T Q C E A : Type}

/-! ## The entries in the queues -/

/-- `ring q` are the entries in queue `q`, in order. -/
structure Listed (l : Lists T Q E) (ring : Q → List E) : Prop where
  rings : Rings l.links Node.head fun q => (ring q).map Node.entry
  mem_ring : ∀ q e, e ∈ ring q ↔ e ∈ l.entries (l.entry e).thread ∧ (l.entry e).queue = q
  thread : ∀ t e, e ∈ l.entries t → (l.entry e).thread = t
  nodup : ∀ t, (l.entries t).Nodup
  allocated : ∀ t e, e ∈ l.entries t → l.allocated e = true

theorem listed_init (memory : E → wait_entry_t T Q) :
    Listed (init memory : System T Q C E A).lists fun _ => [] where
  rings := by
    refine ⟨fun q => ring_nil _ rfl rfl, ?_⟩
    intro q q' hq x hx
    simp only [map_nil, mem_singleton] at hx ⊢
    rw [hx]
    exact fun he => hq (Node.head.inj he)
  mem_ring q e := by simp [init]
  thread t e he := by cases he
  nodup t := nodup_nil
  allocated t e he := by cases he

section Entries
variable {l : Lists T Q E} {ring : Q → List E}

theorem Listed.not_mem_of_free (h : Listed l ring) {e : E} (he : l.allocated e = false) (t : T) :
    e ∉ l.entries t := by
  intro hmem
  rw [h.allocated t e hmem] at he
  cases he

variable [DecidableEq Q]

theorem map_update (ring : Q → List E) (q : Q) (es : List E) :
    (fun q' => (update ring q es q').map (Node.entry (Q := Q))) =
      update (fun q' => (ring q').map Node.entry) q (es.map Node.entry) := by
  funext q'
  by_cases hq : q' = q
  · subst hq
    simp
  · simp [update_of_ne hq]

variable [DecidableEq T] [DecidableEq E]

theorem mem_entries_push (l : Lists T Q E) (t u : T) (q : Q) (e e' : E) :
    e' ∈ (l.push t q e).entries u ↔ e' ∈ l.entries u ∨ u = t ∧ e' = e := by
  by_cases hu : u = t
  · subst hu
    simp [Lists.push]
  · simp [Lists.push, hu]

omit [DecidableEq Q] in
theorem popAll_of_nil {t : T} (h : l.entries t = []) : l.popAll t = l := by
  have he : update l.entries t [] = l.entries := by rw [← h, update_eq_self]
  simp only [Lists.popAll, h, he, not_mem_nil, if_false]

theorem Listed.push (h : Listed l ring) (t : T) (q : Q) {e : E} (he : l.allocated e = false) :
    Listed (l.push t q e) (update ring q (ring q ++ [e])) := by
  have hfree := h.not_mem_of_free he
  have hring : ∀ q', e ∉ ring q' := fun q' hm => hfree _ ((h.mem_ring q' e).1 hm).1
  have hnode : ∀ q', Node.entry e ∉ Node.head q' :: (ring q').map Node.entry := by
    intro q' hm
    rcases mem_cons.1 hm with hm | hm
    · cases hm
    · obtain ⟨e', he', heq⟩ := mem_map.1 hm
      exact hring q' (Node.entry.inj heq ▸ he')
  refine ⟨?_, ?_, ?_, ?_, ?_⟩
  · rw [map_update, map_append]
    exact rings_push_back (rings_entry_init h.rings hnode) q hnode
  · intro q' e'
    have hmem : e' ∈ update ring q (ring q ++ [e]) q' ↔ e' ∈ ring q' ∨ q' = q ∧ e' = e := by
      by_cases hq : q' = q
      · subst hq
        simp
      · simp [hq]
    rw [hmem, mem_entries_push]
    by_cases hee : e' = e
    · subst hee
      simp [Lists.push, hring q', eq_comm]
    · rw [h.mem_ring]
      simp [Lists.push, hee]
  · intro u e' hm
    rcases (mem_entries_push l t u q e e').1 hm with hold | ⟨rfl, rfl⟩
    · have hee : e' ≠ e := by
        rintro rfl
        exact hfree u hold
      simp only [Lists.push, update_of_ne hee]
      exact h.thread u e' hold
    · simp [Lists.push]
  · intro u
    by_cases hu : u = t
    · subst hu
      simp only [Lists.push, update_self]
      rw [nodup_append]
      refine ⟨h.nodup u, nodup_singleton e, ?_⟩
      rintro x hx y hy rfl
      exact hfree u (mem_singleton.1 hy ▸ hx)
    · simp only [Lists.push, update_of_ne hu]
      exact h.nodup u
  · intro u e' hm
    by_cases hee : e' = e
    · subst hee
      simp [Lists.push]
    · simp only [Lists.push, update_of_ne hee]
      rcases (mem_entries_push l t u q e e').1 hm with hm | ⟨-, he'⟩
      · exact h.allocated u e' hm
      · exact absurd he' hee

theorem Listed.mem_entries_remove (h : Listed l ring) {t : T} {e : E} (he : e ∈ l.entries t) (u : T) (e' : E) :
    e' ∈ (l.remove e).entries u ↔ e' ∈ l.entries u ∧ e' ≠ e := by
  have ht := h.thread t e he
  simp only [Lists.remove, ht]
  by_cases hu : u = t
  · subst hu
    rw [update_self, (h.nodup u).mem_erase_iff, and_comm]
  · rw [update_of_ne hu]
    refine ⟨fun hm => ⟨hm, ?_⟩, And.left⟩
    rintro rfl
    exact hu ((h.thread u _ hm).symm.trans ht)

/-- The ring of a removed entry, which was anywhere in it. -/
theorem Listed.remove (h : Listed l ring) {t : T} {e : E} (he : e ∈ l.entries t) {l₁ l₂ : List E}
    (hl : ring (l.entry e).queue = l₁ ++ e :: l₂) :
    Listed (l.remove e) (update ring (l.entry e).queue (l₁ ++ l₂)) := by
  have ht := h.thread t e he
  have hentries := h.mem_entries_remove he
  have he12 : e ∉ l₁ ++ l₂ := by
    have hr := (h.rings.ring (l.entry e).queue).nodup
    rw [hl] at hr
    have hd := nodup_middle.1 (List.Nodup.of_map _ (nodup_cons.1 hr).2)
    exact (nodup_cons.1 hd).1
  refine ⟨?_, ?_, ?_, ?_, ?_⟩
  · rw [map_update, map_append]
    exact rings_remove h.rings (by rw [hl, map_append, map_cons])
  · intro q e'
    have hmem : e' ∈ update ring (l.entry e).queue (l₁ ++ l₂) q ↔ e' ∈ ring q ∧ e' ≠ e := by
      by_cases hq : q = (l.entry e).queue
      · subst hq
        rw [update_self, hl]
        by_cases hee : e' = e
        · subst hee
          simp [he12]
        · simp [hee]
      · rw [update_of_ne hq]
        refine ⟨fun hm => ⟨hm, ?_⟩, And.left⟩
        rintro rfl
        exact hq ((h.mem_ring q _).1 hm).2.symm
    rw [hmem, h.mem_ring, hentries]
    simp only [Lists.remove]
    tauto
  · intro u e' hm
    exact h.thread u e' ((hentries u e').1 hm).1
  · intro u
    by_cases hu : u = t
    · subst hu
      simp only [Lists.remove, ht, update_self]
      exact (h.nodup u).erase e
    · simp only [Lists.remove, ht, update_of_ne hu]
      exact h.nodup u
  · intro u e' hm
    obtain ⟨hm, hee⟩ := (hentries u e').1 hm
    simp only [Lists.remove, update_of_ne hee]
    exact h.allocated u e' hm

end Entries

/-! ## What the places say -/

/-- The thread does not wait. -/
def Place.out : Place C → Bool
  | .running | .early => true
  | _ => false

/-- The thread has become blocked and was not submitted since. -/
def Place.off : Place C → Bool
  | .noting _ | .left => true
  | _ => false

/-- The CPU whose lock the thread holds. -/
def Place.lock : Place C → Option C
  | .finalizing c | .noting c => some c
  | .removing lock => lock
  | _ => none

/-- The CPU that finalizes the thread. -/
def Place.cpu : Place C → Option C
  | .finalizing c | .noting c => some c
  | _ => none

/-- The states a thread can have at its place. -/
def Thread.StateOk (th : Thread C) : Prop :=
  match th.place with
  | .running | .early => th.state = .ACTIVE
  | .enqueued => th.state = .ACTIVE ∨ th.state = .UNBLOCKING
  | .prepared | .committed | .finalizing _ => th.state = .PRE_BLOCK ∨ th.state = .UNBLOCKING
  | .removing _ => th.state = .UNBLOCKING
  | .noting _ | .left => th.state = .BLOCKED ∨ th.state = .UNBLOCKING

variable {th : Thread C} {p : Caller T Q C E} {c : C}

theorem Thread.StateOk.off (h : th.StateOk) (hb : th.state = .BLOCKED) : th.place.off = true := by
  cases hp : th.place with
  | noting _ | left => rfl
  | _ => simp [Thread.StateOk, hp, hb] at h

/-- A thread that waits may become unblocking at any place. -/
theorem Thread.StateOk.unblocking (hout : th.place.out = false) : Thread.StateOk { th with state := .UNBLOCKING } := by
  cases hp : th.place with
  | running | early => simp [hp, Place.out] at hout
  | _ => simp [Thread.StateOk]

theorem out_of_off {p : Place C} (h : p.off = true) : p.out = false := by
  cases p with
  | noting _ | left => rfl
  | _ => cases h

/-- The threads a caller has taken over and not yet submitted. -/
def Caller.owned : Caller T Q C E → List T
  | .scanning _ _ threads | .unblocking _ threads => threads
  | .removing _ _ t rest | .submitting _ _ t rest => t :: rest
  | _ => []

/-- The thread whose CPU the caller has locked, or had. -/
def Caller.current : Caller T Q C E → Option T
  | .removing _ _ t _ | .submitting _ _ t _ => some t
  | _ => none

/-- The thread whose entries the caller has removed. -/
def Caller.drained : Caller T Q C E → Option T
  | .submitting _ _ t _ => some t
  | _ => none

/-- The CPU whose lock the caller holds. -/
def Caller.lock : Caller T Q C E → Option C
  | .removing _ c _ _ | .submitting .timeouts c _ _ | .checking c => some c
  | _ => none

/-- The threads that `wait_check_timeouts` would have beside its current one. -/
def Caller.others : Caller T Q C E → List T
  | .unblocking .timeouts threads => threads
  | .removing .timeouts _ _ rest | .submitting .timeouts _ _ rest => rest
  | _ => []

structure ThreadOk (s : System T Q C E A) (t : T) : Prop where
  state : (s.thread t).StateOk
  entries : (s.thread t).place.out = true → s.lists.entries t = []
  lock : ∀ c, (s.thread t).place.lock = some c → s.wlock c = some (.inl t)
  owner : ∀ c, (s.thread t).place.cpu = some c → (s.thread t).owner = some c
  submits : (s.thread t).submits ≤ 1
  fresh : (s.thread t).place.off = true → (s.thread t).submits = 0

/-- A thread that may be in the list of a CPU. -/
def InList (c : C) (th : Thread C) : Prop :=
  th.owner = some c ∧ (th.place = .finalizing c ∨ th.place = .noting c ∨ th.place = .left)

structure CallerOk (s : System T Q C E A) (a : A) : Prop where
  lock : ∀ c, (s.caller a).lock = some c → s.wlock c = some (.inr a)
  owned : ∀ t ∈ (s.caller a).owned, (s.thread t).place.off = true ∧ (s.thread t).state = .UNBLOCKING
  nodup : (s.caller a).owned.Nodup
  current : ∀ t, (s.caller a).current = some t →
    (s.thread t).place = .left ∧ ∀ c, t ∉ s.blockedThreads c
  drained : ∀ t, (s.caller a).drained = some t → s.lists.entries t = []
  others : (s.caller a).others = []

structure Proto (s : System T Q C E A) : Prop where
  thread : ∀ t, ThreadOk s t
  blocked : ∀ c, ∀ t ∈ s.blockedThreads c, InList c (s.thread t)
  caller : ∀ a, CallerOk s a
  alone : ∀ a b t, t ∈ (s.caller a).owned → t ∈ (s.caller b).owned → a = b
  claimed : ∀ t, (s.thread t).place.off = true → (s.thread t).state = .UNBLOCKING →
    ∃ a, t ∈ (s.caller a).owned

theorem proto_init (memory : E → wait_entry_t T Q) : Proto (init memory : System T Q C E A) where
  thread _ := ⟨rfl, fun _ => rfl, nofun, nofun, Nat.zero_le 1, nofun⟩
  blocked := nofun
  caller _ := ⟨nofun, nofun, nodup_nil, nofun, nofun, rfl⟩
  alone := nofun
  claimed := nofun

variable {s s' : System T Q C E A} {t : T} {a : A}

/-! ## What a step of another leaves alone -/

theorem ThreadOk.frame (h : ThreadOk s t) (hth : s'.thread t = s.thread t)
    (hentries : s'.lists.entries t = s.lists.entries t)
    (hlock : ∀ c, s.wlock c = some (.inl t) → s'.wlock c = some (.inl t)) : ThreadOk s' t where
  state := hth ▸ h.state
  entries hp := by
    rw [hentries]
    exact h.entries (hth ▸ hp)
  lock c hc := hlock c (h.lock c (hth ▸ hc))
  owner c hc := by
    rw [hth] at hc ⊢
    exact h.owner c hc
  submits := hth ▸ h.submits
  fresh hp := by
    rw [hth] at hp ⊢
    exact h.fresh hp

theorem threadOk_of_eq (hth : s.thread t = th) (hstate : th.StateOk)
    (hout : th.place.out = true → s.lists.entries t = [])
    (hlock : ∀ c, th.place.lock = some c → s.wlock c = some (.inl t))
    (howner : ∀ c, th.place.cpu = some c → th.owner = some c) (hsub : th.submits ≤ 1)
    (hfresh : th.place.off = true → th.submits = 0) : ThreadOk s t := by
  subst hth
  exact ⟨hstate, hout, hlock, howner, hsub, hfresh⟩

theorem mem_owned_of_current (h : p.current = some t) : t ∈ p.owned := by
  cases p with
  | removing | submitting => exact Option.some.inj h ▸ mem_cons_self
  | _ => cases h

theorem mem_owned_of_drained (h : p.drained = some t) : t ∈ p.owned := by
  cases p with
  | submitting _ _ u rest => exact Option.some.inj h ▸ mem_cons_self
  | _ => cases h

/-- A caller is left alone by a step that leaves its threads off their CPUs. -/
theorem CallerOk.frame (h : CallerOk s a) (hcaller : s'.caller a = s.caller a)
    (hlock : ∀ c, s.wlock c = some (.inr a) → s'.wlock c = some (.inr a))
    (howned : ∀ t ∈ (s.caller a).owned,
      ((s'.thread t).place.off = true ∧ (s'.thread t).state = .UNBLOCKING) ∧
        ((s.thread t).place = .left → (s'.thread t).place = .left) ∧
        (s.lists.entries t = [] → s'.lists.entries t = []))
    (hblocked : ∀ t ∈ (s.caller a).owned, ∀ c, t ∈ s'.blockedThreads c → t ∈ s.blockedThreads c) :
    CallerOk s' a where
  lock c hc := hlock c (h.lock c (hcaller ▸ hc))
  owned t ht := (howned t (hcaller ▸ ht)).1
  nodup := hcaller ▸ h.nodup
  current t ht := by
    rw [hcaller] at ht
    have hmem := mem_owned_of_current ht
    obtain ⟨hleft, hnot⟩ := h.current t ht
    exact ⟨(howned t hmem).2.1 hleft, fun c hc => hnot c (hblocked t hmem c hc)⟩
  drained t ht := by
    rw [hcaller] at ht
    exact (howned t (mem_owned_of_drained ht)).2.2 (h.drained t ht)
  others := hcaller ▸ h.others

theorem callerOk_of_eq (hp : s.caller a = p) (hlock : ∀ c, p.lock = some c → s.wlock c = some (.inr a))
    (howned : ∀ t ∈ p.owned, (s.thread t).place.off = true ∧ (s.thread t).state = .UNBLOCKING)
    (hnodup : p.owned.Nodup)
    (hcur : ∀ t, p.current = some t → (s.thread t).place = .left ∧ ∀ c, t ∉ s.blockedThreads c)
    (hdr : ∀ t, p.drained = some t → s.lists.entries t = []) (hothers : p.others = []) : CallerOk s a := by
  subst hp
  exact ⟨hlock, howned, hnodup, hcur, hdr, hothers⟩

theorem Proto.not_owned (h : Proto s) (ht : (s.thread t).place.off = false ∨ (s.thread t).state ≠ .UNBLOCKING) :
    ∀ a, t ∉ (s.caller a).owned := by
  intro a hmem
  obtain ⟨hoff, hstate⟩ := (h.caller a).owned t hmem
  rcases ht with ht | ht
  · rw [ht] at hoff
    cases hoff
  · exact ht hstate

/-! ## What a step keeps of the waits -/

/-- What a thread with these entries may do unless it begins to wait. -/
structure Thread.Keeps (th th' : Thread C) (entries : List E) : Prop where
  waits : th'.waits = th.waits
  unblocking : entries ≠ [] → th.state = .UNBLOCKING → th'.state = .UNBLOCKING
  passed : th.state = .UNBLOCKING ∨ th.place.out = true → th'.state = .UNBLOCKING ∨ th'.place.out = true

theorem Thread.Keeps.refl (th : Thread C) (entries : List E) : th.Keeps th entries := ⟨rfl, fun _ => id, id⟩

variable {th' : Thread C} {entries : List E} {o : Place C}

section
variable (hw : th'.waits = th.waits)
include hw

theorem Thread.Keeps.of_unblocking (hu : th'.state = .UNBLOCKING) : th.Keeps th' entries :=
  ⟨hw, fun _ _ => hu, fun _ => .inl hu⟩

/-- A thread whose state is none of those that a scan leaves behind. -/
theorem Thread.Keeps.of_waiting (hu : th.state ≠ .UNBLOCKING) (hp : th.place = o) (ho : o.out = false) :
    th.Keeps th' entries := by
  refine ⟨hw, fun _ hs => absurd hs hu, ?_⟩
  rintro (hs | hs)
  · exact absurd hs hu
  · rw [hp, ho] at hs
    cases hs

/-- A thread without entries that does not wait any more. -/
theorem Thread.Keeps.of_out (hent : entries = []) (ho : th'.place.out = true) : th.Keeps th' entries :=
  ⟨hw, fun he => absurd hent he, fun _ => .inr ho⟩

theorem Thread.Keeps.of_same (hs : th'.state = th.state) (hp : th.place = o) (ho : o.out = false) :
    th.Keeps th' entries := by
  refine ⟨hw, fun _ hu => hs.trans hu, ?_⟩
  rintro (hu | hu)
  · exact .inl (hs.trans hu)
  · rw [hp, ho] at hu
    cases hu

end

/-- The call of `wait_unblock` that a caller is in. -/
def Caller.call : Caller T Q C E → Option (Call T Q)
  | .batch call | .scanning call _ _ | .unblocking (.unblock call) _ | .removing (.unblock call) _ _ _
  | .submitting (.unblock call) _ _ _ => some call
  | _ => none

/-- A caller goes on in its call, or begins one, without scanning. -/
def Caller.Follows (p p' : Caller T Q C E) : Prop :=
  (∀ call elem threads, p' ≠ .scanning call elem threads) ∧
    ∀ call, p'.call = some call → p.call = some call ∨ call.scans = []

theorem Caller.Follows.of_none {p p' : Caller T Q C E} (h : p'.call = none) : p.Follows p' := by
  refine ⟨?_, fun call hc => ?_⟩
  · rintro call elem threads rfl
    cases h
  · rw [h] at hc
    cases hc

structure Quiet (s s' : System T Q C E A) : Prop where
  lists : s'.lists = s.lists
  qlock : s'.qlock = s.qlock
  returned : s'.returned = s.returned
  caller : ∀ b, s'.caller b = s.caller b ∨ (s.caller b).Follows (s'.caller b)
  thread : ∀ u, (s.thread u).Keeps (s'.thread u) (s.lists.entries u)

def Kept (s s' : System T Q C E A) : Prop := Proto s' ∧ Quiet s s'

section Steps
variable [DecidableEq T]

/-- The next system, after a step of the thread `t`. -/
def System.moved (s : System T Q C E A) (t : T) (th : Thread C) (l : Lists T Q E) (wlock : C → Option (T ⊕ A))
    (blocked : C → List T) : System T Q C E A :=
  { s with lists := l, thread := update s.thread t th, wlock := wlock, blockedThreads := blocked }

variable {l : Lists T Q E} {w : C → Option (T ⊕ A)} {b : C → List T}

theorem keeps_update (hth : s'.thread = update s.thread t th)
    (hk : (s.thread t).Keeps th (s.lists.entries t)) (u : T) :
    (s.thread u).Keeps (s'.thread u) (s.lists.entries u) := by
  rw [hth]
  by_cases hu : u = t
  · subst hu
    rw [update_self]
    exact hk
  · rw [update_of_ne hu]
    exact .refl _ _

theorem quiet_moved (hk : (s.thread t).Keeps th (s.lists.entries t)) : Quiet s (s.moved t th s.lists w b) :=
  ⟨rfl, rfl, rfl, fun _ => .inl rfl, keeps_update rfl hk⟩

/-- A step of the thread `t`. The callers that own it must find it as before. -/
theorem Proto.thread_step (h : Proto s) (hentries : ∀ u ≠ t, l.entries u = s.lists.entries u)
    (hlock : ∀ c x, x ≠ .inl t → s.wlock c = some x → w c = some x)
    (hblocked : ∀ c, ∀ u ∈ b c, u ≠ t → u ∈ s.blockedThreads c)
    (ht : ThreadOk (s.moved t th l w b) t) (hlist : ∀ c, t ∈ b c → InList c th)
    (howned : ∀ a, t ∈ (s.caller a).owned → (th.place.off = true ∧ th.state = .UNBLOCKING) ∧
      ((s.thread t).place = .left → th.place = .left) ∧ (s.lists.entries t = [] → l.entries t = []) ∧
      ∀ c, t ∈ b c → t ∈ s.blockedThreads c)
    (hclaim : th.place.off = true → th.state = .UNBLOCKING → ∃ a, t ∈ (s.caller a).owned) :
    Proto (s.moved t th l w b) := by
  have hself : (s.moved t th l w b).thread t = th := update_self ..
  have hother : ∀ u ≠ t, (s.moved t th l w b).thread u = s.thread u := fun u hu => update_of_ne hu ..
  refine ⟨fun u => ?_, fun c u hu => ?_, fun a => ?_, h.alone, fun u hoff hun => ?_⟩
  · by_cases hu : u = t
    · exact hu ▸ ht
    · refine (h.thread u).frame (hother u hu) (hentries u hu) fun c => hlock c _ ?_
      exact fun he => hu (Sum.inl.inj he)
  · by_cases hut : u = t
    · subst hut
      rw [hself]
      exact hlist c hu
    · rw [hother u hut]
      exact h.blocked c u (hblocked c u hu hut)
  · refine (h.caller a).frame rfl (fun c => hlock c _ Sum.inr_ne_inl) (fun u hu => ?_) fun u hu c hc => ?_
    · by_cases hut : u = t
      · subst hut
        rw [hself]
        obtain ⟨hst, hleft, hent, -⟩ := howned a hu
        exact ⟨hst, hleft, hent⟩
      · rw [hother u hut]
        refine ⟨(h.caller a).owned u hu, id, fun hent => ?_⟩
        exact (hentries u hut).trans hent
    · by_cases hut : u = t
      · subst hut
        exact (howned a hu).2.2.2 c hc
      · exact hblocked c u hc hut
  · by_cases hut : u = t
    · subst hut
      rw [hself] at hoff hun
      exact hclaim hoff hun
    · rw [hother u hut] at hoff hun
      exact h.claimed u hoff hun

/-- A step of a thread that no caller owns, and that leaves the wait entries alone. -/
theorem Proto.free_step (h : Proto s) (hnot : ∀ a, t ∉ (s.caller a).owned)
    (hlock : ∀ c x, x ≠ .inl t → s.wlock c = some x → w c = some x)
    (hblocked : ∀ c, ∀ u ∈ b c, u ≠ t → u ∈ s.blockedThreads c)
    (ht : ThreadOk (s.moved t th s.lists w b) t) (hlist : ∀ c, t ∈ b c → InList c th)
    (hclaim : th.place.off = true → th.state ≠ .UNBLOCKING) (hk : (s.thread t).Keeps th (s.lists.entries t)) :
    Kept s (s.moved t th s.lists w b) := by
  refine ⟨h.thread_step (fun _ _ => rfl) hlock hblocked ht hlist (fun a ha => absurd ha (hnot a)) ?_, quiet_moved hk⟩
  exact fun hoff hun => absurd hun (hclaim hoff)

variable [DecidableEq A]

section

omit [DecidableEq T]

/-- A step of one caller, which may change threads. -/
theorem quiet_of_caller {f : T → Thread C} (hp : (s.caller a).Follows p)
    (hth : ∀ u, (s.thread u).Keeps (f u) (s.lists.entries u)) :
    Quiet s { s with thread := f, caller := update s.caller a p, wlock := w, blockedThreads := b } := by
  refine ⟨rfl, rfl, rfl, fun b' => ?_, hth⟩
  by_cases hb : b' = a
  · subst hb
    simp only [update_self]
    exact .inr hp
  · exact .inl (update_of_ne hb ..)

variable {q : Q → Option A} {r : List (Call T Q)} (h : Proto s)
  (hlock : ∀ c x, x ≠ .inr a → s.wlock c = some x → w c = some x)
  (hblocked : ∀ c, ∀ u ∈ b c, u ∈ s.blockedThreads c) (hp : ∀ c, p.lock = some c → w c = some (.inr a))
  (howned : p.owned = (s.caller a).owned)
  (hcur : ∀ t, p.current = some t → (s.thread t).place = .left ∧ ∀ c, t ∉ s.blockedThreads c)
  (hdr : ∀ t, p.drained = some t → s.lists.entries t = []) (hothers : p.others = [])
include h hlock hp howned hcur hdr hothers

include hblocked in
theorem Proto.caller_only :
    Proto { s with caller := update s.caller a p, wlock := w, blockedThreads := b, qlock := q, returned := r } := by
  have hown : ∀ b, (update s.caller a p b).owned = (s.caller b).owned :=
    update_map_eq _ howned
  refine ⟨fun u => ?_, fun c u hu => h.blocked c u (hblocked c u hu), fun b => ?_, fun b b' u => ?_, fun u hoff hun => ?_⟩
  · exact (h.thread u).frame rfl rfl fun c => hlock c _ Sum.inl_ne_inr
  · by_cases hb : b = a
    · subst hb
      refine callerOk_of_eq (update_self ..) hp ?_ (howned ▸ (h.caller b).nodup) (fun u hu => ?_) hdr hothers
      · rw [howned]
        exact (h.caller b).owned
      · exact ⟨(hcur u hu).1, fun c hc => (hcur u hu).2 c (hblocked c u hc)⟩
    · refine (h.caller b).frame (update_of_ne hb ..) (fun c => hlock c _ fun he => hb (Sum.inr.inj he)) ?_
        fun u _ c => hblocked c u
      exact fun u hu => ⟨(h.caller b).owned u hu, id, id⟩
  · rw [hown, hown]
    exact h.alone b b' u
  · obtain ⟨b, hb⟩ := h.claimed u hoff hun
    exact ⟨b, (hown b).symm ▸ hb⟩

theorem Proto.caller_quiet (hf : (s.caller a).Follows p) :
    Kept s { s with caller := update s.caller a p, wlock := w } :=
  ⟨h.caller_only hlock (fun _ _ hu => hu) hp howned hcur hdr hothers, quiet_of_caller hf fun _ => .refl _ _⟩

end

/-- The next system, after a step of the caller `a` that changes the thread `t`. -/
def System.called (s : System T Q C E A) (t : T) (th : Thread C) (a : A) (p : Caller T Q C E)
    (wlock : C → Option (T ⊕ A)) (blocked : C → List T) : System T Q C E A :=
  { s with thread := update s.thread t th, caller := update s.caller a p, wlock := wlock, blockedThreads := blocked }

/-- A step of the caller `a` that touches the thread `t`. -/
theorem Proto.caller_step (h : Proto s) (hlock : ∀ c x, x ≠ .inr a → s.wlock c = some x → w c = some x)
    (hblocked : ∀ c, ∀ u ∈ b c, u ∈ s.blockedThreads c) (ht : ThreadOk (s.called t th a p w b) t)
    (hlist : ∀ c, t ∈ b c → InList c th) (hp : ∀ c, p.lock = some c → w c = some (.inr a)) (hnodup : p.owned.Nodup)
    (hcur : ∀ u, p.current = some u → u = t ∧ th.place = .left ∧ ∀ c, t ∉ b c) (hdr : p.drained = none)
    (hothers : p.others = []) (hnew : ∀ u ∈ p.owned, u ≠ t → u ∈ (s.caller a).owned)
    (hself : t ∈ p.owned → (th.place.off = true ∧ th.state = .UNBLOCKING) ∧
      (t ∈ (s.caller a).owned ∨ ∀ b, t ∉ (s.caller b).owned))
    (hkept : ∀ u ∈ (s.caller a).owned, u ∈ p.owned ∨ u = t ∧ th.place.off = false)
    (hother : ∀ b ≠ a, t ∈ (s.caller b).owned → th.state = .UNBLOCKING ∧ th.place = (s.thread t).place)
    (hclaim : th.place.off = true → th.state = .UNBLOCKING →
      t ∈ p.owned ∨ (s.thread t).place.off = true ∧ (s.thread t).state = .UNBLOCKING) :
    Proto (s.called t th a p w b) := by
  have htt : (s.called t th a p w b).thread t = th := update_self ..
  have hthread : ∀ u ≠ t, (s.called t th a p w b).thread u = s.thread u := fun u hu => update_of_ne hu ..
  have hpa : (s.called t th a p w b).caller a = p := update_self ..
  have hpb : ∀ b' ≠ a, (s.called t th a p w b).caller b' = s.caller b' := fun b' hb => update_of_ne hb ..
  have halone : ∀ b, ∀ u, u ∈ p.owned → u ∈ (s.caller b).owned → b = a := by
    intro b u hu hub
    by_cases hut : u = t
    · subst hut
      rcases (hself hu).2 with hold | hnone
      · exact h.alone b a u hub hold
      · exact absurd hub (hnone b)
    · exact h.alone b a u hub (hnew u hu hut)
  -- A thread that is still unblocking off its CPU has kept its caller.
  have hkeep : ∀ u, ((s.called t th a p w b).thread u).place.off = true → (∃ b, u ∈ (s.caller b).owned) →
      ∃ b', u ∈ ((s.called t th a p w b).caller b').owned := by
    rintro u hoff ⟨b', hb⟩
    by_cases hba : b' = a
    · subst hba
      rcases hkept u hb with hu | ⟨rfl, hoff'⟩
      · exact ⟨b', hpa.symm ▸ hu⟩
      · rw [htt, hoff'] at hoff
        cases hoff
    · exact ⟨b', (hpb b' hba).symm ▸ hb⟩
  refine ⟨fun u => ?_, fun c u hu => ?_, fun b' => ?_, one_update (fun p u => u ∈ Caller.owned p) h.alone halone,
    fun u hoff hun => ?_⟩
  · by_cases hu : u = t
    · exact hu ▸ ht
    · exact (h.thread u).frame (hthread u hu) rfl fun c => hlock c _ Sum.inl_ne_inr
  · by_cases hut : u = t
    · subst hut
      rw [htt]
      exact hlist c hu
    · rw [hthread u hut]
      exact h.blocked c u (hblocked c u hu)
  · by_cases hb : b' = a
    · subst hb
      refine callerOk_of_eq hpa hp (fun u hu => ?_) hnodup (fun u hu => ?_) (by rw [hdr]; nofun) hothers
      · by_cases hut : u = t
        · subst hut
          rw [htt]
          exact (hself hu).1
        · rw [hthread u hut]
          exact (h.caller b').owned u (hnew u hu hut)
      · obtain ⟨rfl, hleft⟩ := hcur u hu
        rw [htt]
        exact hleft
    · refine (h.caller b').frame (hpb b' hb) (fun c => hlock c _ fun he => hb (Sum.inr.inj he)) (fun u hu => ?_)
        fun u _ c => hblocked c u
      by_cases hut : u = t
      · subst hut
        obtain ⟨hstate, hplace⟩ := hother b' hb hu
        rw [htt, hplace]
        exact ⟨⟨((h.caller b').owned u hu).1, hstate⟩, id, id⟩
      · rw [hthread u hut]
        exact ⟨(h.caller b').owned u hu, id, id⟩
  · by_cases hut : u = t
    · subst hut
      have hoff' := hoff
      rw [htt] at hoff' hun
      rcases hclaim hoff' hun with hu | ⟨ho, hu⟩
      · exact ⟨a, hpa.symm ▸ hu⟩
      · exact hkeep u hoff (h.claimed u ho hu)
    · have hoff' := hoff
      rw [hthread u hut] at hoff' hun
      exact hkeep u hoff (h.claimed u hoff' hun)

end Steps

/-! ## Locks and lists -/

theorem wlock_acquire [DecidableEq C] {y : Option (T ⊕ A)} (hfree : s.wlock c = none) (c' : C)
    (x : T ⊕ A) (hx : s.wlock c' = some x) : (s.lockCpu c y).wlock c' = some x := by
  have hne : c' ≠ c := by
    rintro rfl
    rw [hfree] at hx
    cases hx
  simp only [System.lockCpu, update_of_ne hne, hx]

theorem wlock_release [DecidableEq C] {y : T ⊕ A} (hheld : s.wlock c = some y) (c' : C) (x : T ⊕ A)
    (hxy : x ≠ y) (hx : s.wlock c' = some x) : (s.lockCpu c none).wlock c' = some x := by
  have hne : c' ≠ c := by
    rintro rfl
    rw [hheld] at hx
    exact hxy (Option.some.inj hx).symm
  simp only [System.lockCpu, update_of_ne hne, hx]

theorem mem_removeBlocked [DecidableEq T] {u : T} (hu : u ∈ (s.removeBlocked t).blockedThreads c) :
    u ∈ s.blockedThreads c ∧ u ≠ t := by
  simpa [System.removeBlocked] using hu

theorem mem_insertBlocked {deadline : T → Nat} {threads : List T} [DecidableEq T] {u : T}
    (hu : u ∈ insertBlocked deadline threads t) : u = t ∨ u ∈ threads := by
  unfold insertBlocked at hu
  split at hu
  · rcases mem_append.1 hu with hu | hu
    · exact .inr hu
    · exact .inl (mem_singleton.1 hu)
  · dsimp only at hu
    split at hu
    · exact .inr hu
    · rw [← takeWhile_append_dropWhile (p := fun other => decide (deadline other ≤ deadline t)) (l := threads)]
      rcases mem_append.1 hu with hu | hu
      · exact .inr (mem_append_left _ hu)
      · rcases mem_cons.1 hu with rfl | hu
        · exact .inl rfl
        · exact .inr (mem_append_right _ hu)

/-- A thread without a lock that is not off its CPU is in no list of a CPU. -/
theorem Proto.not_blocked (h : Proto s) (hlock : (s.thread t).place.lock = none)
    (hoff : (s.thread t).place.off = false) (c : C) : t ∉ s.blockedThreads c := by
  intro hmem
  obtain ⟨-, hp | hp | hp⟩ := h.blocked c t hmem
  · rw [hp] at hlock
    cases hlock
  · rw [hp] at hlock
    cases hlock
  · rw [hp] at hoff
    cases hoff

end Patchwork.Wait
