import Patchwork.Sync.Rcu
/-!
# Grace periods

What `rcu.c` promises its callers: a callback runs only after every CPU that
was in a read-side section at the `rcu_call` has left that section. The
argument is an invariant of the system with one clause per list of a CPU: a
`ready` callback has no open section left to wait for, and a `waiting` one has
none outside the CPUs its grace period still waits for.

`rcu_advance` does not keep it: it may attach a batch to a grace period that
has begun, after a CPU has acknowledged it and entered a new section. The
promise is kept by exactly the runs in which that CPU is not there, which is
what the condition `AttachSafe` on a step says.
-/

namespace Patchwork.Rcu

open List Option Lib

/-! ## Updates of one CPU -/

@[simp] theorem cpu_setCpu_self (s : State) (c : Nat) (v : Cpu) : (s.setCpu c v).cpu c = v := by
  simp [State.setCpu]

variable {c k : Nat} {s s' : State} {v : Cpu} {m : Machine} {e : Queued}

theorem cpu_setCpu_other (s : State) (v : Cpu) (h : k ≠ c) : (s.setCpu c v).cpu k = s.cpu k := by
  simp [State.setCpu, Function.update_of_ne h]

@[simp] theorem ack_setCpu (s : State) (c : Nat) (v : Cpu) : (s.setCpu c v).ack = s.ack := rfl
@[simp] theorem grace_setCpu (s : State) (c : Nat) (v : Cpu) : (s.setCpu c v).grace = s.grace := rfl
@[simp] theorem active_setCpu (s : State) (c : Nat) (v : Cpu) : (s.setCpu c v).active = s.active := rfl
@[simp] theorem log_setCpu (s : State) (c : Nat) (v : Cpu) : (s.setCpu c v).log = s.log := rfl

/-! ## Open sections -/

/-- No CPU is still in a section that `e` has to wait for. -/
def Clear (s : State) (e : Queued) : Prop := ∀ k, ¬ Blocks s e k

/-- The sections `e` recorded are of the machine's CPUs and have begun. -/
def Recorded (m : Machine) (s : State) (e : Queued) : Prop :=
  ∀ k i, e.inside k = some i → k < m.cpus ∧ i ≤ (s.cpu k).serial

/-- `s'` comes after `s`: a section open in both is the same only if it has
been open all the time. -/
def Later (s s' : State) : Prop :=
  ∀ k, (s.cpu k).serial ≤ (s'.cpu k).serial ∧
    ((s'.cpu k).serial = (s.cpu k).serial → 0 < (s'.cpu k).preempt → 0 < (s.cpu k).preempt)

theorem Later.setCpu (hs : (s.cpu c).serial ≤ v.serial)
    (hp : v.serial = (s.cpu c).serial → 0 < v.preempt → 0 < (s.cpu c).preempt) : Later s (s.setCpu c v) := by
  intro k
  by_cases h : k = c
  · subst h
    simpa using ⟨hs, hp⟩
  · rw [cpu_setCpu_other s v h]
    exact ⟨le_rfl, fun _ h => h⟩

theorem Recorded.later (h : Recorded m s e) (hl : Later s s') : Recorded m s' e :=
  fun k i hi => ⟨(h k i hi).1, Nat.le_trans (h k i hi).2 (hl k).1⟩

/-- A CPU never comes back to a section it has left. -/
theorem Blocks.before (h : Recorded m s e) (hl : Later s s') (hb : Blocks s' e k) : Blocks s e k := by
  have hle := (h k _ hb.2).2
  have heq : (s'.cpu k).serial = (s.cpu k).serial := le_antisymm hle (hl k).1
  exact ⟨(hl k).2 heq hb.1, heq ▸ hb.2⟩

theorem Clear.later (h : Recorded m s e) (hl : Later s s') (hc : Clear s e) : Clear s' e :=
  fun k hb => hc k (hb.before h hl)

/-! ## The invariant -/

/-- Every CPU that `e` has to wait for keeps the grace period `g` from ending:
`g` has not begun, or it is active and waits for that CPU. -/
def Covered (s : State) (g : Nat) (e : Queued) : Prop :=
  ∀ k, Blocks s e k → s.grace < g ∨ (g = s.grace ∧ s.active = true ∧ s.ack.bit k = true)

/-- What holds of the CPU `v` of the state `s`. -/
structure CpuInv (m : Machine) (s : State) (v : Cpu) : Prop where
  idle : v.idle = true → v.preempt = 0
  grace : v.rcu.grace ≤ s.grace + 1
  batch : ∀ e ∈ v.rcu.batch, Recorded m s e
  waiting : ∀ e ∈ v.rcu.waiting, Recorded m s e
  ready : ∀ e ∈ v.rcu.ready, Recorded m s e ∧ Clear s e
  /-- Until the batch is attached, `rcu.grace` says nothing about it. -/
  covered : (∀ b, v.phase ≠ .attaching b) → ∀ e ∈ v.rcu.waiting, Covered s v.rcu.grace e
  wake : v.phase = .checked true ∨ v.phase = .invoked true → ∀ e ∈ v.rcu.waiting, Clear s e

/-- Every callback run so far had no section left to wait for. -/
def GracePeriod (s : State) : Prop := ∀ i ∈ s.log, i.blockers = []

structure Inv (m : Machine) (s : State) : Prop where
  length : s.ack.length = CPU_MAX
  cpus : ∀ c, CpuInv m s (s.cpu c)
  log : GracePeriod s

theorem inv_init (m : Machine) : Inv m init := by
  refine ⟨rfl, fun c => ⟨fun _ => rfl, Nat.zero_le _, ?_, ?_, ?_, ?_, ?_⟩, fun i hi => absurd hi not_mem_nil⟩
  · exact fun e he => absurd he not_mem_nil
  · exact fun e he => absurd he not_mem_nil
  · exact fun e he => absurd he not_mem_nil
  · exact fun _ e he => absurd he not_mem_nil
  · exact fun _ e he => absurd he not_mem_nil

/-- A CPU's invariant survives a step that keeps its waiting callbacks covered. -/
theorem CpuInv.later (h : CpuInv m s v) (hl : Later s s') (hg : s.grace ≤ s'.grace)
    (hcov : ∀ e ∈ v.rcu.waiting, Covered s v.rcu.grace e → Covered s' v.rcu.grace e) : CpuInv m s' v where
  idle := h.idle
  grace := Nat.le_trans h.grace (Nat.succ_le_succ hg)
  batch e he := (h.batch e he).later hl
  waiting e he := (h.waiting e he).later hl
  ready e he := ⟨(h.ready e he).1.later hl, (h.ready e he).2.later (h.ready e he).1 hl⟩
  covered hp e he := hcov e he (h.covered hp e he)
  wake hp e he := (h.wake hp e he).later (h.waiting e he) hl

theorem Covered.later {g : Nat} (hr : Recorded m s e) (hl : Later s s')
    (hg : s'.grace = s.grace) (ha : s'.active = s.active) (hk : s'.ack = s.ack) (h : Covered s g e) :
    Covered s' g e := by
  intro k hb
  rw [hg, ha, hk]
  exact h k (hb.before hr hl)

/-- A step that changes one CPU only keeps the invariant if what it makes of
that CPU is right in the state before. -/
theorem Inv.setCpu (h : Inv m s) (hl : Later s (s.setCpu c v)) (hv : CpuInv m s v) : Inv m (s.setCpu c v) := by
  have hcpu : ∀ k, CpuInv m s ((s.setCpu c v).cpu k) := by
    intro k
    by_cases hk : k = c
    · rw [hk, cpu_setCpu_self]
      exact hv
    · rw [cpu_setCpu_other s v hk]
      exact h.cpus k
  refine ⟨h.length, fun k => ?_, h.log⟩
  exact (hcpu k).later hl le_rfl fun e he => Covered.later ((hcpu k).waiting e he) hl rfl rfl rfl

/-! ## The steps -/

theorem inv_read_lock (h : Inv m s) (hi : (s.cpu c).idle = false) : Inv m (rcu_read_lock s c) := by
  refine h.setCpu (Later.setCpu ?_ ?_) { h.cpus c with idle := fun h' => absurd h' (by simp [hi]) }
  · dsimp only
    split <;> omega
  · dsimp only
    split <;> omega

theorem inv_read_unlock (h : Inv m s) : Inv m (rcu_read_unlock s c) := by
  refine h.setCpu (Later.setCpu le_rfl fun _ hp => ?_) { h.cpus c with idle := fun hi => ?_ }
  · simp only at hp
    omega
  · have := (h.cpus c).idle hi
    simp only
    omega

theorem inv_setIdle (b : Bool) (h : Inv m s) (hp : (s.cpu c).preempt = 0) : Inv m (s.setCpu c { s.cpu c with idle := b }) :=
  h.setCpu (Later.setCpu le_rfl fun _ h' => h') { h.cpus c with idle := fun _ => hp }

theorem recorded_sections (m : Machine) (s : State) (e : rcu_entry_t) : Recorded m s ⟨e, s.sections m⟩ := by
  intro k i hi
  simp only [State.sections] at hi
  split at hi
  · rename_i hk
    exact ⟨hk.1, Nat.le_of_eq (Option.some.inj hi).symm⟩
  · cases hi

theorem inv_call (entry func : Option Nat) (arg : Nat) (h : Inv m s) : Inv m (rcu_call m s c entry func arg) := by
  unfold rcu_call
  split
  · refine h.setCpu (Later.setCpu le_rfl fun _ h' => h') { h.cpus c with batch := fun e he => ?_ }
    rcases mem_append.1 he with he | he
    · exact (h.cpus c).batch e he
    · rw [mem_singleton.1 he]
      exact recorded_sections m s _
  · exact h

/-- What the acknowledgement of `rcu_check_quiescent` does to the globals. -/
def acknowledge (s : State) (c : Nat) : State := (rcu_check_quiescent s c).1

section
variable (s c)

theorem acknowledge_eq : acknowledge s c =
      if s.active && bitmap_is_set s.ack c then
        { s with ack := bitmap_clear s.ack c,
                 active := if bitmap_is_empty (bitmap_clear s.ack c) then false else s.active }
      else s := rfl

theorem check_wake :
    (rcu_check_quiescent s c).2 = (!((acknowledge s c).cpu c).rcu.waiting.isEmpty &&
      (decide ((acknowledge s c).grace > ((acknowledge s c).cpu c).rcu.grace) ||
        ((acknowledge s c).grace == ((acknowledge s c).cpu c).rcu.grace && !(acknowledge s c).active))) := rfl

@[simp] theorem cpu_acknowledge : (acknowledge s c).cpu = s.cpu := by
  rw [acknowledge_eq]
  split <;> rfl

@[simp] theorem grace_acknowledge : (acknowledge s c).grace = s.grace := by
  rw [acknowledge_eq]
  split <;> rfl

@[simp] theorem log_acknowledge : (acknowledge s c).log = s.log := by
  rw [acknowledge_eq]
  split <;> rfl

@[simp] theorem length_acknowledge : (acknowledge s c).ack.length = s.ack.length := by
  rw [acknowledge_eq]
  split
  · exact length_clear _ _
  · rfl

end

/-- While another CPU's bit is set, an acknowledgement changes nothing for it. -/
theorem acknowledge_other (hk : k ≠ c) (hlt : k < s.ack.length) (ha : s.active = true)
    (hb : s.ack.bit k = true) : (acknowledge s c).active = true ∧ (acknowledge s c).ack.bit k = true := by
  have hbit : (bitmap_clear s.ack c).bit k = true := by
    rw [bit_clear, hb]
    simp [hk]
  rw [acknowledge_eq]
  split
  · refine ⟨?_, hbit⟩
    have hne : ¬ bitmap_is_empty (bitmap_clear s.ack c) = true := by
      rw [is_empty_iff]
      intro h
      have := h k (by rwa [length_clear])
      rw [hbit] at this
      cases this
    simp only [hne, ha]
    rfl
  · exact ⟨ha, hb⟩

theorem inv_acknowledge (h : Inv m s) (hp : (s.cpu c).preempt = 0) : Inv m (acknowledge s c) := by
  have hl : Later s (acknowledge s c) := by
    intro k
    rw [cpu_acknowledge]
    exact ⟨le_rfl, fun _ h => h⟩
  refine ⟨by rw [length_acknowledge, h.length], fun k => ?_, by rw [GracePeriod, log_acknowledge]; exact h.log⟩
  rw [cpu_acknowledge]
  refine (h.cpus k).later hl (Nat.le_of_eq (grace_acknowledge c s).symm) fun e he hcov j hb => ?_
  have hbs : Blocks s e j := hb.before ((h.cpus k).waiting e he) hl
  rw [grace_acknowledge]
  rcases hcov j hbs with hg | ⟨hg, ha, hj⟩
  · exact .inl hg
  · -- The reporting CPU is outside every section, so `j` is another one.
    have hjc : j ≠ c := by
      rintro rfl
      exact absurd hbs.1 (by omega)
    have hlt : j < s.ack.length := by
      have h1 := ((h.cpus k).waiting e he j _ hbs.2).1
      have h2 := m.le_max
      have h3 := h.length
      omega
    exact .inr ⟨hg, acknowledge_other hjc hlt ha hj⟩

theorem inv_check (h : Inv m s) (hp : (s.cpu c).preempt = 0) (hph : (s.cpu c).phase = .outside) :
    Inv m ((rcu_check_quiescent s c).1.setPhase c (.checked (rcu_check_quiescent s c).2)) := by
  have hi : Inv m (acknowledge s c) := inv_acknowledge h hp
  have hcov := (hi.cpus c).covered (by simp [hph])
  refine hi.setCpu (Later.setCpu le_rfl fun _ h' => h')
    { hi.cpus c with covered := fun _ => hcov, wake := fun hw e he k hb => ?_ }
  have hwake : (rcu_check_quiescent s c).2 = true := by simpa using hw
  rw [check_wake, Bool.and_eq_true, Bool.or_eq_true, Bool.and_eq_true, decide_eq_true_eq, beq_iff_eq] at hwake
  rcases hcov e he k hb with hg | ⟨hg, ha, -⟩
  · omega
  · rcases hwake.2 with hlt | ⟨-, hna⟩
    · omega
    · rw [ha] at hna
      cases hna

theorem inv_log {i : Invocation} (h : Inv m s) (hi : i.blockers = []) : Inv m { s with log := i :: s.log } := by
  refine ⟨h.length, fun k => ?_, fun j hj => ?_⟩
  · exact (h.cpus k).later (fun _ => ⟨le_rfl, fun _ h => h⟩) le_rfl fun e _ hcov => hcov
  · rcases mem_cons.1 hj with rfl | hj
    · exact hi
    · exact h.log j hj

theorem inv_invoke {next : Phase} (h : Inv m s) (hatt : ∀ b, (s.cpu c).phase ≠ .attaching b)
    (hnext : next = .checked true ∨ next = .invoked true → (s.cpu c).phase = .checked true) :
    Inv m (rcu_invoke_callbacks m s c next) := by
  have hv := h.cpus c
  unfold rcu_invoke_callbacks
  dsimp only
  split
  · refine h.setCpu (Later.setCpu le_rfl fun _ h' => h') { hv with covered := fun _ => hv.covered hatt, wake := ?_ }
    exact fun hw => hv.wake (.inl (hnext hw))
  · rename_i e ready hr
    have hclear : (List.range m.cpus).filter (fun k => decide (Blocks s e k)) = [] := by
      rw [filter_eq_nil_iff]
      intro k _
      have := (hv.ready e (by rw [hr]; exact mem_cons_self)).2 k
      simpa using this
    have hpop : CpuInv m s { s.cpu c with rcu := { (s.cpu c).rcu with ready } } :=
      { hv with ready := fun d hd => hv.ready d (by rw [hr]; exact mem_cons_of_mem _ hd) }
    exact inv_log (h.setCpu (Later.setCpu le_rfl fun _ h' => h') hpop) hclear

theorem Clear.covered (g : Nat) (h : Clear s e) : Covered s g e :=
  fun k hb => absurd hb (h k)

theorem inv_advance {wake : Bool} (h : Inv m s) (hph : (s.cpu c).phase = .invoked wake) : Inv m (rcu_advance s c wake) := by
  have hv := h.cpus c
  have hcov := hv.covered (by simp [hph])
  -- The lists after the first rotation, in which `wake` sends `waiting` to `ready`.
  have hrot : CpuInv m s { s.cpu c with
      rcu := if wake then { (s.cpu c).rcu with ready := (s.cpu c).rcu.waiting, waiting := (s.cpu c).rcu.ready }
        else (s.cpu c).rcu
      phase := .advanced } := by
    cases wake with
    | false => exact { hv with covered := fun _ => hcov, wake := fun hw => by simp at hw }
    | true =>
      refine { hv with waiting := fun e he => (hv.ready e he).1, ready := fun e he => ⟨hv.waiting e he, ?_⟩,
                       covered := fun _ e he => (hv.ready e he).2.covered _, wake := fun hw => by simp at hw }
      exact hv.wake (.inr hph) e he
  unfold rcu_advance
  dsimp only at hrot ⊢
  generalize (if wake = true then _ else (s.cpu c).rcu) = rcu at hrot ⊢
  split
  · have hmove : CpuInv m s { s.cpu c with
        rcu := { rcu with waiting := rcu.batch, batch := rcu.waiting, grace := (s.grace + 1) % 2 ^ 64 }
        phase := .attaching s.active } :=
      { hrot with grace := Nat.mod_le _ _, batch := hrot.waiting, waiting := hrot.batch,
                  covered := fun hn => absurd rfl (hn s.active), wake := fun hw => by simp at hw }
    exact h.setCpu (Later.setCpu le_rfl fun _ h' => h') hmove
  · exact h.setCpu (Later.setCpu le_rfl fun _ h' => h') hrot

theorem inv_advance_grace {active : Bool} (h : Inv m s) (hlt : s.grace + 1 < 2 ^ 64)
    (hsafe : active = true → ∀ e ∈ (s.cpu c).rcu.waiting, ∀ k, Blocks s e k →
      s.active = true ∧ s.ack.bit k = true) : Inv m (rcu_advance_grace s c active) := by
  have hv := h.cpus c
  refine h.setCpu (Later.setCpu le_rfl fun _ h' => h') { hv with
    grace := ?_, covered := fun _ e he k hb => ?_, wake := fun hw => by simp at hw }
  · dsimp only
    split
    · omega
    · exact Nat.mod_le _ _
  · cases active with
    | true => exact .inr ⟨rfl, hsafe rfl e he k hb⟩
    | false =>
      refine .inl ?_
      simp only [Bool.false_eq_true, if_false, Nat.mod_eq_of_lt hlt]
      omega

/-! ## Starting a grace period -/

theorem Inv.setPhase {p : Phase} (h : Inv m s) (hatt : ∀ b, (s.cpu c).phase ≠ .attaching b)
    (hp : p ≠ .checked true ∧ p ≠ .invoked true) : Inv m (s.setPhase c p) := by
  have hv := h.cpus c
  refine h.setCpu (Later.setCpu le_rfl fun _ h' => h') { hv with covered := fun _ => hv.covered hatt, wake := ?_ }
  rintro (hw | hw)
  · exact absurd hw hp.1
  · exact absurd hw hp.2

/-- A grace period begins, for which all CPUs are waited for. -/
theorem inv_begin {lock : Option Nat} (h : Inv m s) (hlt : s.grace + 1 < 2 ^ 64) (hna : ¬ s.active = true) :
    Inv m { s with active := true, grace := (s.grace + 1) % 2 ^ 64, ack := bitmap_set_range s.ack 0 m.cpus, lock } := by
  refine ⟨(length_set_range _ _ _).trans h.length, fun k => ?_, h.log⟩
  have hg : (s.grace + 1) % 2 ^ 64 = s.grace + 1 := Nat.mod_eq_of_lt hlt
  refine (h.cpus k).later (fun _ => ⟨le_rfl, fun _ h => h⟩) (show s.grace ≤ (s.grace + 1) % 2 ^ 64 by omega) ?_
  intro e he hcov j hb
  rcases hcov j hb with hgt | ⟨-, ha, -⟩
  · -- The list waits for the grace period that begins now.
    have hgk := (h.cpus k).grace
    have hj := ((h.cpus k).waiting e he j _ hb.2).1
    have hm := m.le_max
    refine .inr ⟨show (s.cpu k).rcu.grace = (s.grace + 1) % 2 ^ 64 by omega, rfl, ?_⟩
    have hin : inRange s.ack 0 m.cpus j = true := decide_eq_true ⟨Nat.zero_le j, hj, h.length ▸ hm⟩
    rw [bit_set_range, hin, Bool.true_or]
  · exact absurd ha hna

theorem inv_start_grace (h : Inv m s) (hph : (s.cpu c).phase = .drained) (hlt : s.grace + 1 < 2 ^ 64) :
    Inv m (rcu_start_grace m s c) := by
  unfold rcu_start_grace
  split
  · exact h.setPhase (by simp [hph]) (by simp)
  · split
    · exact h.setPhase (by simp [hph]) (by simp)
    · rename_i hna
      exact (inv_begin h hlt hna).setPhase (by simp [hph]) (by simp)

theorem inv_clear_idle {lock : Option Nat} (h : Inv m s) :
    Inv m { s with ack := if (s.cpu k).idle then bitmap_clear s.ack k else s.ack, lock } := by
  refine ⟨?_, fun j => ?_, h.log⟩
  · dsimp only
    split
    · exact (length_clear _ _).trans h.length
    · exact h.length
  · refine (h.cpus j).later (fun _ => ⟨le_rfl, fun _ h => h⟩) le_rfl fun e _ hcov i hb => ?_
    rcases hcov i hb with hg | ⟨hg, ha, hi⟩
    · exact .inl hg
    · refine .inr ⟨hg, ha, ?_⟩
      dsimp only
      split
      · rename_i hidle
        have hne : i ≠ k := by
          rintro rfl
          exact absurd ((h.cpus i).idle hidle) (Nat.ne_of_gt hb.1)
        rw [bit_clear, hi]
        simp [hne]
      · exact hi

theorem inv_start_grace_loop {next : Nat} {found : Bool} (h : Inv m s) (hph : (s.cpu c).phase = .starting next found) :
    Inv m (rcu_start_grace_loop m s c next found) := by
  unfold rcu_start_grace_loop
  dsimp only
  split
  · exact (inv_clear_idle h).setPhase (by simp [hph]) (by simp)
  · exact (inv_clear_idle h).setPhase (by simp [hph]) (by simp)

/-! ## Runs -/

/-- The condition under which a step of `rcu_report_quiescent` is safe. A batch
that `rcu_advance` attaches to the grace period it found active waits for the
CPUs that have not acknowledged it; these have to include every CPU that is
still in the section it was in at the `rcu_call` of one of these callbacks.
The counter of grace periods has not run full. -/
def AttachSafe (m : Machine) (s : State) : Action → Prop
  | .report c =>
    s.grace + 1 < 2 ^ 64 ∧
      ((s.cpu c).phase = .attaching true → ∀ e ∈ (s.cpu c).rcu.waiting, ∀ k < m.cpus, Blocks s e k →
        s.active = true ∧ s.ack.bit k = true)
  | _ => True

instance (m : Machine) (s : State) (a : Action) : Decidable (AttachSafe m s a) := by
  cases a <;> unfold AttachSafe <;> infer_instance

theorem inv_report (h : Inv m s) (hp : (s.cpu c).preempt = 0)
    (hsafe : AttachSafe m s (.report c)) : Inv m (rcu_report_quiescent m s c) := by
  unfold rcu_report_quiescent
  cases hph : (s.cpu c).phase with
  | outside => exact inv_check h hp hph
  | checked wake => exact inv_invoke h (by simp [hph]) (by rintro (hw | hw) <;> simp_all)
  | invoked wake => exact inv_advance h hph
  | attaching active =>
    refine inv_advance_grace h hsafe.1 fun hact e he k hb => ?_
    have hk := ((h.cpus c).waiting e he k _ hb.2).1
    exact hsafe.2 (by rw [hph, hact]) e he k hk hb
  | advanced => exact inv_invoke h (by simp [hph]) (by rintro (hw | hw) <;> cases hw)
  | drained => exact inv_start_grace h hph hsafe.1
  | starting next found => exact inv_start_grace_loop h hph

theorem inv_step {a : Action} (h : Inv m s) (hsafe : AttachSafe m s a) (hs : step m s a = some s') : Inv m s' := by
  cases a with
  | readLock c =>
    obtain ⟨hc, ⟨⟩⟩ := ite_none_right_eq_some.1 hs
    exact inv_read_lock h hc.2
  | readUnlock c =>
    obtain ⟨-, ⟨⟩⟩ := ite_none_right_eq_some.1 hs
    exact inv_read_unlock h
  | call c entry func arg =>
    obtain ⟨-, ⟨⟩⟩ := ite_none_right_eq_some.1 hs
    exact inv_call entry func arg h
  | report c =>
    obtain ⟨hc, ⟨⟩⟩ := ite_none_right_eq_some.1 hs
    exact inv_report h hc.2.1 hsafe
  | setIdle c idle =>
    obtain ⟨hc, ⟨⟩⟩ := ite_none_right_eq_some.1 hs
    exact inv_setIdle idle h hc.2.1

/-- Along every run whose attachments are safe, each callback is invoked only
after every CPU that was inside a read-side section at its `rcu_call` has left
that section. -/
theorem callbacks_wait_for_readers (m : Machine) (as : List Action) (h : Along (step m) (AttachSafe m) init as) :
    Always (step m) GracePeriod init as :=
  ((h.always (fun _ _ _ => inv_step) (inv_init m))).mono fun _ hi => hi.log

/-- A CPU outside read-side sections reports, phase by phase. -/
def reports (c n : Nat) : List Action := List.replicate n (.report c)

/-- Three CPUs. CPU 2 starts a grace period; CPU 1 acknowledges it and opens a
read-side section; CPU 0 queues a callback and attaches it to that grace
period, which ends when CPU 0 and CPU 2 report. -/
def staleAttach : List Action :=
  [.setIdle 0 false, .setIdle 1 false, .setIdle 2 false, .call 2 (some 1) (some 1) 0] ++ reports 2 9 ++
    reports 1 5 ++ [.readLock 1, .call 0 (some 2) (some 2) 0] ++ reports 0 6 ++ reports 2 1 ++ reports 0 4

/-- The callback that CPU 0 queued while CPU 1 was in a read-side section has
run, and CPU 1 was in it still. -/
theorem callback_runs_under_reader : ¬ Always (step ⟨3, by decide⟩) GracePeriod init staleAttach := by
  refine not_always (fun s => ∃ i ∈ s.log, i.entry.func = 2 ∧ i.blockers = [1]) (by decide +kernel) ?_
  rintro s ⟨i, hi, -, hb⟩ h
  have hnil := h i hi
  rw [hb] at hnil
  cases hnil

/-- A run in which CPU 0's callback waits for the reader on CPU 1: it attaches
to the next grace period, and runs once CPU 1 has left and reported. -/
def freshAttach : List Action :=
  [.setIdle 0 false, .setIdle 1 false, .readLock 1, .call 0 (some 2) (some 2) 0] ++ reports 0 8 ++ reports 0 5 ++
    [.readUnlock 1] ++ reports 1 5 ++ reports 0 4

theorem freshAttach_waits :
    Along (step ⟨2, by decide⟩) (AttachSafe ⟨2, by decide⟩) init freshAttach ∧
      Always (step ⟨2, by decide⟩) GracePeriod init freshAttach ∧
      ((run (step ⟨2, by decide⟩) init freshAttach).map fun s => s.log.map fun i => i.entry.func) = some [2] :=
  have h : Along (step ⟨2, by decide⟩) (AttachSafe ⟨2, by decide⟩) init freshAttach := by decide +kernel
  ⟨h, callbacks_wait_for_readers _ _ h, by decide +kernel⟩

end Patchwork.Rcu
