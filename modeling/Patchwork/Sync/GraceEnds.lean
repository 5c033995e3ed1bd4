import Patchwork.Sync.GracePeriod
/-!
# Active grace periods can end

Only `rcu_check_quiescent` clears `active`, and only on a CPU whose own bit of
`ack` is set: an active grace period that waits for nobody never ends, and no
callback queued from then on runs. `rcu_start_grace` begins such a grace period
when it finds each CPU idle at the time it looks at it, the reporting one
included, which has switched to its idle thread before `sched_do` reports.
-/

namespace Patchwork.Rcu

open Lib

/-- An active grace period waits for some CPU. -/
def NotWedged (m : Machine) (s : State) : Prop :=
  s.active = true → ∃ k < m.cpus, bitmap_is_set s.ack k = true

/-- A step that ends the loop of `rcu_start_grace` has found a CPU that was not idle when
its flag was read, now or before. -/
def FindsBusy (m : Machine) (s : State) : Action → Prop
  | .report c => c < m.cpus → (s.cpu c).preempt = 0 → ∀ next found, (s.cpu c).phase = .starting next found →
    next + 1 = m.cpus → found = true ∨ (s.cpu next).idle = false
  | _ => True

/-- CPU `c` is in the loop: the CPUs from `next` on are waited for, and of those before it
the ones that were not idle. -/
structure Starting (m : Machine) (s : State) (c next : Nat) (found : Bool) : Prop where
  lock : s.lock = some c
  active : s.active = true
  lt : next < m.cpus
  rest : ∀ k, next ≤ k → k < m.cpus → s.ack.bit k = true
  found : found = true ↔ ∃ k < next, s.ack.bit k = true

/-- The bitmap has its length, and no bit beyond the machine's CPUs. -/
structure AckInv (m : Machine) (s : State) : Prop where
  length : s.ack.length = CPU_MAX
  cpus : ∀ k, s.ack.bit k = true → k < m.cpus
  starting : ∀ c next found, (s.cpu c).phase = .starting next found → Starting m s c next found

theorem ackInv_init (m : Machine) : AckInv m init :=
  ⟨rfl, fun k h => by simp [init, BITMAP_CREATE_ZERO, bitmap_t.bit] at h, fun c next found h => by cases h⟩

variable {m : Machine} {s s' : State} {a : Action} {c : Nat}

theorem AckInv.is_set_iff (h : AckInv m s) (k : Nat) : bitmap_is_set s.ack k = true ↔ s.ack.bit k = true := by
  rw [is_set_eq, Bool.and_eq_true, decide_eq_true_eq, h.length]
  refine ⟨And.right, fun hb => ⟨?_, hb⟩⟩
  have := h.cpus k hb
  have := m.le_max
  omega

theorem AckInv.notWedged_iff (h : AckInv m s) : NotWedged m s ↔ (s.active = true → ∃ k, s.ack.bit k = true) := by
  refine imp_congr_right fun _ => ⟨?_, ?_⟩
  · rintro ⟨k, -, hb⟩
    exact ⟨k, (h.is_set_iff k).1 hb⟩
  · rintro ⟨k, hb⟩
    exact ⟨k, h.cpus k hb, (h.is_set_iff k).2 hb⟩

/-! ## What a step does to the globals -/

/-- The globals are left alone, and no CPU begins a loop. -/
structure Quiet (s s' : State) : Prop where
  ack : s'.ack = s.ack
  active : s'.active = s.active
  lock : s'.lock = s.lock
  phase : ∀ c next found, (s'.cpu c).phase = .starting next found → (s.cpu c).phase = .starting next found

theorem quiet_setCpu {v : Cpu} (hv : ∀ next found, v.phase = .starting next found →
    (s.cpu c).phase = .starting next found) : Quiet s (s.setCpu c v) := by
  refine ⟨rfl, rfl, rfl, fun d next found hd => ?_⟩
  by_cases hdc : d = c
  · subst hdc
    rw [cpu_setCpu_self] at hd
    exact hv next found hd
  · rwa [cpu_setCpu_other s v hdc] at hd

theorem quiet_invoke {next : Phase} (hnext : ∀ k found, next ≠ .starting k found) :
    Quiet s (rcu_invoke_callbacks m s c next) := by
  unfold rcu_invoke_callbacks
  dsimp only
  split
  · exact quiet_setCpu fun k found hk => absurd hk (hnext k found)
  · rename_i ready _
    have hq : Quiet s (s.setCpu c { s.cpu c with rcu := { (s.cpu c).rcu with ready } }) :=
      quiet_setCpu fun _ _ hk => hk
    exact ⟨rfl, rfl, rfl, hq.phase⟩

theorem quiet_advance {wake : Bool} : Quiet s (rcu_advance s c wake) := by
  unfold rcu_advance
  dsimp only
  generalize (if wake = true then _ else (s.cpu c).rcu) = rcu
  split <;> exact quiet_setCpu fun _ _ hk => by cases hk

/-- A step leaves the globals alone, acknowledges the grace period, starts one, or is a
round of the loop. -/
theorem globals_step (hs : step m s a = some s') : Quiet s s' ∨
    (∃ c wake, s.lock = none ∧ s' = (acknowledge s c).setPhase c (.checked wake)) ∨
    (∃ c, s.lock = none ∧ c < m.cpus ∧ s' = State.setPhase { s with
      active := true, grace := (s.grace + 1) % 2 ^ 64, ack := bitmap_set_range s.ack 0 m.cpus, lock := some c }
      c (.starting 0 false)) ∨
    ∃ c next found, a = .report c ∧ c < m.cpus ∧ (s.cpu c).preempt = 0 ∧ (s.cpu c).phase = .starting next found ∧
      s' = rcu_start_grace_loop m s c next found := by
  cases a with
  | readLock | readUnlock | setIdle =>
    obtain ⟨-, ⟨⟩⟩ := Option.ite_none_right_eq_some.1 hs
    exact .inl (quiet_setCpu fun _ _ hk => hk)
  | call c entry func arg =>
    obtain ⟨-, ⟨⟩⟩ := Option.ite_none_right_eq_some.1 hs
    refine .inl ?_
    unfold rcu_call
    split
    · exact quiet_setCpu fun _ _ hk => hk
    · exact ⟨rfl, rfl, rfl, fun _ _ _ hk => hk⟩
  | report c =>
    obtain ⟨⟨hc, hp, hwaits⟩, ⟨⟩⟩ := Option.ite_none_right_eq_some.1 hs
    rw [State.Waits, not_and_or, Option.not_isSome_iff_eq_none] at hwaits
    unfold rcu_report_quiescent
    cases hph : (s.cpu c).phase with
    | outside => exact .inr (.inl ⟨c, _, hwaits.resolve_right (by simp [hph]), rfl⟩)
    | checked wake => exact .inl (quiet_invoke fun _ _ hk => by cases hk)
    | invoked wake => exact .inl quiet_advance
    | attaching active => exact .inl (quiet_setCpu fun _ _ hk => by cases hk)
    | advanced => exact .inl (quiet_invoke fun _ _ hk => by cases hk)
    | drained =>
      dsimp only
      unfold rcu_start_grace
      split
      · exact .inl (quiet_setCpu fun _ _ hk => by cases hk)
      · rename_i hwaiting
        split
        · exact .inl (quiet_setCpu fun _ _ hk => by cases hk)
        · exact .inr (.inr (.inl ⟨c, hwaits.resolve_right (by simpa [hph] using hwaiting), hc, rfl⟩))
    | starting next found => exact .inr (.inr (.inr ⟨c, next, found, rfl, hc, hp, hph, rfl⟩))

theorem bit_acknowledge {k : Nat} (h : (acknowledge s c).ack.bit k = true) : s.ack.bit k = true := by
  rw [acknowledge_eq] at h
  split at h
  · rw [bit_clear, Bool.and_eq_true] at h
    exact h.2
  · exact h

/-! ## The loop -/

theorem bit_begin (h : AckInv m s) (k : Nat) :
    (bitmap_set_range s.ack 0 m.cpus).bit k = true ↔ k < m.cpus := by
  rw [bit_set_range, Bool.or_eq_true, inRange, decide_eq_true_eq, h.length]
  exact ⟨Or.rec (fun hin => hin.2.1) (h.cpus k), fun hk => .inl ⟨Nat.zero_le k, hk, m.le_max⟩⟩

/-- The bit of the CPU that is looked at stays if the CPU is not idle. -/
theorem bit_look {next : Nat} (h : AckInv m s) (hlt : next < m.cpus) (k : Nat) :
    (if (s.cpu next).idle then bitmap_clear s.ack next else s.ack).bit k = true ↔
      s.ack.bit k = true ∧ (k = next → (s.cpu next).idle = false) := by
  have hmax : next < s.ack.length := by
    rw [h.length]
    exact Nat.lt_of_lt_of_le hlt m.le_max
  cases hidle : (s.cpu next).idle with
  | false => simp
  | true =>
    rw [if_pos rfl, bit_clear]
    simp [hmax, and_comm]

/-- What a round of the loop leaves to do. -/
theorem Starting.next {next : Nat} {found : Bool} (h : AckInv m s) (hst : Starting m s c next found)
    (hmore : next + 1 < m.cpus) : Starting m (rcu_start_grace_loop m s c next found) c (next + 1)
      (found || !(s.cpu next).idle) := by
  rw [rcu_start_grace_loop, if_pos hmore]
  refine ⟨hst.lock, hst.active, hmore, fun k hk hlt => ?_, ?_⟩
  · exact (bit_look h hst.lt k).2 ⟨hst.rest k (Nat.le_of_succ_le hk) hlt, fun heq => by omega⟩
  · rw [Bool.or_eq_true, hst.found, Bool.not_eq_true']
    constructor
    · rintro (⟨k, hk, hb⟩ | hbusy)
      · exact ⟨k, by omega, (bit_look h hst.lt k).2 ⟨hb, fun heq => by omega⟩⟩
      · exact ⟨next, by omega, (bit_look h hst.lt next).2 ⟨hst.rest next le_rfl hst.lt, fun _ => hbusy⟩⟩
    · rintro ⟨k, hk, hb⟩
      obtain ⟨hb, hbusy⟩ := (bit_look h hst.lt k).1 hb
      rcases Nat.lt_succ_iff_lt_or_eq.1 hk with hk | rfl
      · exact .inl ⟨k, hk, hb⟩
      · exact .inr (hbusy rfl)

theorem loop_ack (next : Nat) (found : Bool) : (rcu_start_grace_loop m s c next found).ack =
    if (s.cpu next).idle then bitmap_clear s.ack next else s.ack := by
  rw [rcu_start_grace_loop]
  split <;> rfl

theorem loop_phase {next next' d : Nat} {found found' : Bool}
    (h : ((rcu_start_grace_loop m s c next found).cpu d).phase = .starting next' found') :
    (d = c ∧ next + 1 < m.cpus ∧ next' = next + 1 ∧ found' = (found || !(s.cpu next).idle)) ∨
      (d ≠ c ∧ (s.cpu d).phase = .starting next' found') := by
  rw [rcu_start_grace_loop] at h
  by_cases hdc : d = c
  · subst hdc
    split at h
    · rename_i hmore
      rw [State.setPhase, cpu_setCpu_self] at h
      cases h
      exact .inl ⟨rfl, hmore, rfl, rfl⟩
    · rw [State.setPhase, cpu_setCpu_self] at h
      cases h
  · refine .inr ⟨hdc, ?_⟩
    split at h <;> rwa [State.setPhase, cpu_setCpu_other _ _ hdc] at h

theorem ackInv_step (h : AckInv m s) (hs : step m s a = some s') : AckInv m s' := by
  rcases globals_step hs with hq | ⟨c, wake, hlock, rfl⟩ | ⟨c, hlock, hc, rfl⟩ | ⟨c, next, found, -, -, -, hph, rfl⟩
  · refine ⟨hq.ack ▸ h.length, hq.ack ▸ h.cpus, fun c next found hph => ?_⟩
    have hst := h.starting c next found (hq.phase c next found hph)
    exact ⟨hq.lock ▸ hst.lock, hq.active ▸ hst.active, hst.lt, hq.ack ▸ hst.rest, hq.ack ▸ hst.found⟩
  · refine ⟨(length_acknowledge c s).trans h.length, fun k hb => h.cpus k (bit_acknowledge hb), ?_⟩
    intro d next found hph
    -- nobody is in the loop, since the lock is free
    have hquiet : Quiet (acknowledge s c) ((acknowledge s c).setPhase c (.checked wake)) :=
      quiet_setCpu fun _ _ hk => by cases hk
    have hst := hquiet.phase d next found hph
    rw [cpu_acknowledge] at hst
    exact absurd (h.starting d next found hst).lock (by simp [hlock])
  · refine ⟨(length_set_range _ _ _).trans h.length, fun k hb => (bit_begin h k).1 hb, fun d next found hph => ?_⟩
    by_cases hdc : d = c
    · subst hdc
      rw [State.setPhase, cpu_setCpu_self] at hph
      cases hph
      refine ⟨rfl, rfl, Nat.zero_lt_of_lt hc, fun k _ hk => (bit_begin h k).2 hk, ?_⟩
      simp
    · rw [State.setPhase, cpu_setCpu_other _ _ hdc] at hph
      exact absurd (h.starting d next found hph).lock (by simp [hlock])
  · have hst := h.starting c next found hph
    refine ⟨?_, fun k hb => ?_, fun d next' found' hph' => ?_⟩
    · rw [loop_ack]
      split
      · exact (length_clear _ _).trans h.length
      · exact h.length
    · rw [loop_ack] at hb
      exact h.cpus k ((bit_look h hst.lt k).1 hb).1
    · rcases loop_phase hph' with ⟨rfl, hmore, rfl, rfl⟩ | ⟨hdc, hother⟩
      · exact hst.next h hmore
      · have hlock := hst.lock.symm.trans (h.starting d next' found' hother).lock
        exact absurd (Option.some.inj hlock).symm hdc

/-- An acknowledgement that leaves the grace period active leaves a bit set. -/
theorem acknowledge_active (h : s.active = true → ∃ k, s.ack.bit k = true)
    (ha : (acknowledge s c).active = true) : ∃ k, (acknowledge s c).ack.bit k = true := by
  rw [acknowledge_eq] at ha ⊢
  split at ha
  · rename_i hset
    rw [if_pos hset]
    by_contra hn
    push Not at hn
    have hempty : bitmap_is_empty (bitmap_clear s.ack c) = true :=
      (is_empty_iff _).2 fun i _ => by simpa using hn i
    rw [if_pos hempty] at ha
    cases ha
  · rename_i hset
    rw [if_neg hset]
    exact h ha

/-- A round of the loop leaves a bit set unless it is the last one and none was found busy. -/
theorem Starting.bit_iff {next : Nat} {found : Bool} (h : AckInv m s) (hst : Starting m s c next found) :
    (∃ k, (rcu_start_grace_loop m s c next found).ack.bit k = true) ↔
      (next + 1 = m.cpus → found = true ∨ (s.cpu next).idle = false) := by
  rw [loop_ack]
  constructor
  · rintro ⟨k, hb⟩ hlast
    obtain ⟨hb, hbusy⟩ := (bit_look h hst.lt k).1 hb
    have hk := h.cpus k hb
    rcases Nat.lt_or_ge k next with hlt | hge
    · exact .inl (hst.found.2 ⟨k, hlt, hb⟩)
    · exact .inr (hbusy (by omega))
  · intro hbusy
    by_cases hlast : next + 1 = m.cpus
    · rcases hbusy hlast with hfound | hidle
      · obtain ⟨k, hk, hb⟩ := hst.found.1 hfound
        exact ⟨k, (bit_look h hst.lt k).2 ⟨hb, fun heq => by omega⟩⟩
      · exact ⟨next, (bit_look h hst.lt next).2 ⟨hst.rest next le_rfl hst.lt, fun _ => hidle⟩⟩
    · have hlt := hst.lt
      refine ⟨next + 1, (bit_look h hst.lt _).2 ⟨hst.rest _ (Nat.le_succ next) (by omega), fun heq => by omega⟩⟩

theorem loop_active (next : Nat) (found : Bool) : (rcu_start_grace_loop m s c next found).active = s.active := by
  rw [rcu_start_grace_loop]
  split <;> rfl

/-- In every state of a run an active grace period waits for some CPU, exactly if each
grace period the run starts finds a CPU that is not idle when its flag is read. -/
theorem grace_waits_iff_finds_busy (m : Machine) (as : List Action) :
    Always (step m) (NotWedged m) init as ↔ Along (step m) (FindsBusy m) init as := by
  constructor
  · refine Always.along (I := AckInv m) (fun _ _ _ hi _ => ackInv_step hi) ?_ (ackInv_init m)
    rintro s a h - hok
    cases a with
    | report c =>
      simp only [FindsBusy, Classical.not_imp, not_forall] at hok
      obtain ⟨hc, hp, next, found, hph, hlast, hidle⟩ := hok
      have hst := h.starting c next found hph
      have hstep : step m s (.report c) = some (rcu_start_grace_loop m s c next found) := by
        have hwaits : ¬ s.Waits c := by simp [State.Waits, hph]
        rw [step, if_pos ⟨hc, hp, hwaits⟩, rcu_report_quiescent, hph]
      refine ⟨_, hstep, fun hnw => hidle ?_⟩
      rw [(ackInv_step h hstep).notWedged_iff, loop_active] at hnw
      exact (hst.bit_iff h).1 (hnw hst.active) hlast
    | _ => exact absurd trivial hok
  · intro h
    have hboth := h.always (I := fun s => AckInv m s ∧ NotWedged m s) ?_ ⟨ackInv_init m, fun h => by cases h⟩
    · exact hboth.mono fun _ hi => hi.2
    · rintro s a s' ⟨hi, hnw⟩ hok hs
      have hi' := ackInv_step hi hs
      rw [hi.notWedged_iff] at hnw
      refine ⟨hi', hi'.notWedged_iff.2 fun ha => ?_⟩
      rcases globals_step hs with hq | ⟨c, wake, -, rfl⟩ | ⟨c, -, hc, rfl⟩ | ⟨c, next, found, rfl, hc, hp, hph, rfl⟩
      · rw [hq.ack]
        exact hnw (hq.active ▸ ha)
      · exact acknowledge_active hnw ha
      · exact ⟨c, (bit_begin hi c).2 hc⟩
      · exact ((hi.starting c next found hph).bit_iff hi).2 (hok hc hp next found hph)

/-- A CPU queues a callback, goes idle and reports: the grace period it starts
waits for nobody. -/
theorem idle_start_wedges : ¬ Always (step ⟨1, by decide⟩) (NotWedged ⟨1, by decide⟩) init
    ([.setIdle 0 false, .call 0 (some 1) (some 1) 0, .setIdle 0 true] ++ reports 0 7) := by
  refine not_always (fun s => s.active = true ∧ bitmap_is_set s.ack 0 = false) (by decide +kernel) ?_
  rintro s ⟨hactive, hclear⟩ h
  obtain ⟨k, hk, hb⟩ := h hactive
  obtain rfl : k = 0 := Nat.lt_one_iff.1 hk
  rw [hclear] at hb
  cases hb

end Patchwork.Rcu
