import Patchwork.Sched.Lag
/-!
# Overflow

Every lag is bounded by the time that has passed: the positive lags sum to at
most that time, and so do the negative ones, whatever the rounding. The virtual
times themselves are not so bounded. A remainder that rounding has left in the
sum of the lags moves the virtual time at every `sched_leave`, and nothing
takes it back before the runqueue is empty. `drift` bounds what it adds: the
arithmetic is exact while the square of the number of operations since the
runqueue was last empty, times the largest total weight, is small.
-/

namespace Patchwork.Sched

open List Option Function Lib Traced

/-! ## What has to fit -/

/-- `sched_fixed_cmp a b` is computed exactly: the difference fits 128 bits, and
after the shift it survives the cast to 64. -/
def CmpExact (a b : Int) : Prop :=
  (Check.int128 (a - b)).Ok ∧ -2 ^ 63 ≤ (a - b) / 2 ^ SCHED_FIXED_POINT ∧ (a - b) / 2 ^ SCHED_FIXED_POINT < 2 ^ 63

/-- The times that are compared for eligibility. A cached `vminEligible` is one
of the `veligible`. -/
def sched_t.times (s : sched_t) : List Int := s.vtime :: s.runqueue.map fun t => (s.client t).veligible

def sched_t.deadlines (s : sched_t) : List Int := s.runqueue.map fun t => (s.client t).vdeadline

/-- A step computes exactly: every value fits, no divisor is zero, and so do
the comparisons on the way from the runqueue before to the one after. -/
def Exact (s : State) (a : Action) : Prop :=
  ∀ r, exec s a = some r → r.Ok ∧
    (∀ x ∈ s.sched.times ++ r.val.sched.times, ∀ y ∈ s.sched.times ++ r.val.sched.times, CmpExact x y) ∧
    (∀ x ∈ s.sched.deadlines ++ r.val.sched.deadlines, ∀ y ∈ s.sched.deadlines ++ r.val.sched.deadlines,
      CmpExact x y) ∧
    CmpExact r.val.sched.lagSum 0

/-- The uptimes a scheduler is called with are below `2 ^ 62` nanoseconds. -/
def UptimeBelow (s : State) (a : Action) : Prop :=
  match step s a with
  | some s' => s'.now.toNat < 2 ^ 62
  | none => True

/-- Moreover, `n ^ 2 * wmax` is at most `2 ^ 123`, for `n` operations since the
runqueue was last empty. -/
def DriftBelow (s : State) (a : Action) : Prop :=
  match step s a with
  | some s' => s'.now.toNat < 2 ^ 62 ∧ s'.ops * (s'.ops * s'.wmax) ≤ 2 ^ 123
  | none => True

instance (s : State) (a : Action) : Decidable (UptimeBelow s a) := by
  unfold UptimeBelow
  split <;> infer_instance

instance (s : State) (a : Action) : Decidable (DriftBelow s a) := by
  unfold DriftBelow
  split <;> infer_instance

variable {s' : State} {a : Action} {uptime : UInt64} {t u : Nat} {x : Int} {s : State}

theorem DriftBelow.after (h : DriftBelow s a) (hs : step s a = some s') :
    s'.now.toNat < 2 ^ 62 ∧ s'.drift ≤ 2 ^ 123 := by
  unfold DriftBelow at h
  rw [hs] at h
  exact h

/-! ## Bounds -/

theorem fixed_lt (h : uptime.toNat < 2 ^ 62) : fixed uptime ≤ (2 ^ 62 - 1) * 2 ^ 63 := by
  unfold fixed SCHED_FIXED_POINT
  omega

theorem share_bounds {w : Int} (hw : 1 ≤ w) : 0 ≤ share w ∧ share w ≤ 10 ^ 7 * 2 ^ 63 := by
  have h := tdiv_le_self (a := CONFIG_TIME_SLICE * 2 ^ SCHED_FIXED_POINT) (by decide) (show 0 < w by omega)
  exact h

namespace SchedInv

variable {s : sched_t} {L d : Int}

theorem times_bounds (h : SchedInv s L d) : ∀ x ∈ s.times, -d ≤ x ∧ x ≤ fixed s.lastUpdate + d := by
  intro x hx
  rcases mem_cons.1 hx with rfl | hx
  · exact h.vtime
  · obtain ⟨t, ht, rfl⟩ := mem_map.1 hx
    exact h.eligible t ht

theorem deadlines_bounds (h : SchedInv s L d) :
    ∀ x ∈ s.deadlines, -d ≤ x ∧ x ≤ fixed s.lastUpdate + d + 10 ^ 7 * 2 ^ 63 := by
  intro x hx
  obtain ⟨t, ht, rfl⟩ := mem_map.1 hx
  have he := h.eligible t ht
  have hs := share_bounds (h.weight t ht).1
  rw [h.deadline t ht]
  omega

/-- A thread's lag is at most the time that has passed. -/
theorem lag_bounds (h : SchedInv s L d) (ht : t ∈ s.runqueue) :
    -fixed s.lastUpdate ≤ lagAt s.vtime (s.client t) ∧ lagAt s.vtime (s.client t) ≤ fixed s.lastUpdate := by
  have hp : posLagAt s.vtime (s.client t) ≤ fixed s.lastUpdate :=
    (le_queueSum (fun _ _ => le_max_right _ _) ht).trans h.pos
  have hn : negLagAt s.vtime (s.client t) ≤ fixed s.lastUpdate :=
    (le_queueSum (fun _ _ => le_max_right _ _) ht).trans h.neg
  unfold posLagAt at hp
  unfold negLagAt at hn
  omega

/-- And so is the sum of the lags. -/
theorem lagSum_bounds (h : SchedInv s L d) : -fixed s.lastUpdate ≤ s.lagSum ∧ s.lagSum ≤ fixed s.lastUpdate := by
  have hsplit : s.lagSum + queueSum s.client s.runqueue (negLagAt s.vtime) =
      queueSum s.client s.runqueue (posLagAt s.vtime) := by
    unfold sched_t.lagSum
    rw [← queueSum_add]
    refine queueSum_congr fun t _ => ?_
    unfold posLagAt negLagAt
    omega
  have hp : 0 ≤ queueSum s.client s.runqueue (posLagAt s.vtime) := queueSum_nonneg fun _ _ => le_max_right _ _
  have hn : 0 ≤ queueSum s.client s.runqueue (negLagAt s.vtime) := queueSum_nonneg fun _ _ => le_max_right _ _
  have := h.pos
  have := h.neg
  omega

end SchedInv

/-! ## The functions -/

theorem slice_eq : CONFIG_TIME_SLICE * 2 ^ SCHED_FIXED_POINT = 10 ^ 7 * 2 ^ 63 := by
  norm_num [CONFIG_TIME_SLICE, SCHED_FIXED_POINT]

theorem update_veligible_ok {c : sched_client_t} {v : Int} (hw : 1 ≤ c.weight)
    (hv : -2 ^ 126 ≤ v ∧ v ≤ 2 ^ 126) : (sched_client_update_veligible c v).Ok := by
  have hs := share_bounds hw
  unfold share at hs
  simp only [sched_client_update_veligible, SCHED_FIXED_TO, ok_bind, ok_shl, ok_div,
    ok_add, val_shl, val_div, ok_pure, and_true, Check.ok_int128]
  rw [slice_eq] at hs ⊢
  generalize (10 ^ 7 * 2 ^ 63 : Int).tdiv c.weight = share at hs ⊢
  omega

theorem vtime_update_ok {s : sched_t} {L d : Int} (h : SchedInv s L d)
    (hrun : ∀ t, s.runThread = some t → t ∈ s.runqueue ∨ s.runqueue = []) (hle : s.lastUpdate ≤ uptime)
    (ht : uptime.toNat < 2 ^ 62) (hd : d ≤ 2 ^ 123) : (sched_vtime_update s uptime).Ok := by
  unfold sched_vtime_update
  cases hr : s.runThread with
  | none => exact ok_pure _
  | some r =>
    dsimp only
    split
    · exact ok_pure _
    · rename_i hW
      have hmem : r ∈ s.runqueue := by
        refine (hrun r hr).resolve_right fun hq => hW ?_
        rw [h.total, hq, queueSum_nil]
      have hinv := h.advanced hmem hle
      have hv := hinv.vtime
      have he := hinv.eligible r ((rbtree_fix_perm _ _ _).mem_iff.2 hmem)
      have hf := fixed_lt ht
      have hf0 := fixed_nonneg s.lastUpdate
      have hfm := fixed_mono hle
      have hw := h.weight r hmem
      have hWp := h.total_pos hmem
      simp only [advanced, update_self, ranFor] at hv he
      simp only [SCHED_FIXED_TO, ok_bind, ok_shl, ok_div, ok_add, val_shl,
        val_div, val_add, ok_pure, and_true]
      rw [fixed_sub hle] at hv he ⊢
      have hD0 : 0 ≤ fixed uptime - fixed s.lastUpdate := by omega
      have hq := tdiv_le_self hD0 hWp
      have hqr := tdiv_le_self hD0 (show 0 < (s.client r).weight by omega)
      generalize (fixed uptime - fixed s.lastUpdate).tdiv s.totalWeight = dv at hv hq ⊢
      generalize (fixed uptime - fixed s.lastUpdate).tdiv (s.client r).weight = dr at he hqr ⊢
      refine ⟨?_, ⟨hW, ?_⟩, ?_, ⟨by omega, ?_⟩, ?_, update_veligible_ok hw.1 ⟨by omega, by omega⟩⟩ <;>
        rw [Check.ok_int128] <;> omega

theorem insert_ok {s : sched_t} {priority : Nat} (hv : -2 ^ 126 ≤ s.vtime ∧ s.vtime ≤ 2 ^ 126) :
    (sched_insert s t priority).Ok := by
  refine (ok_bind _ _).2 ⟨update_veligible_ok ?_ hv, ok_pure _⟩
  simp only [SCHED_WEIGHT_BASE]
  omega

theorem leave_ok {s : sched_t} {L d : Int} (h : SchedInv s L d) (ht : t ∈ s.runqueue)
    (hlast : s.lastUpdate.toNat < 2 ^ 62) (hd : d ≤ 2 ^ 123)
    (hv : -2 ^ 126 ≤ (sched_leave s t uptime).val.vtime ∧ (sched_leave s t uptime).val.vtime ≤ 2 ^ 126) :
    (sched_leave s t uptime).Ok := by
  have hf := fixed_lt hlast
  have hvt := h.vtime
  have he := h.eligible t ht
  have hlag := h.lag_bounds ht
  have hfst : (sub s.vtime (s.client t).veligible).Ok := by
    rw [ok_sub, Check.ok_int128]
    omega
  have hsnd : (mul (s.vtime - (s.client t).veligible) (s.client t).weight).Ok := by
    rw [ok_mul, Check.ok_int128]
    unfold lagAt at hlag
    omega
  refine (ok_bind _ _).2 ⟨hfst, (ok_bind _ _).2 ⟨hsnd, ?_⟩⟩
  dsimp only
  split
  · exact ok_pure _
  · rename_i hw
    rw [leave_val uptime hw] at hv
    have hW := h.weight_le_total ht
    have hpos : 0 < s.totalWeight - (s.client t).weight := by omega
    have hneg := tdiv_le_self (a := -lagAt s.vtime (s.client t)) (b := s.totalWeight - (s.client t).weight)
    have hnonneg := tdiv_le_self (a := lagAt s.vtime (s.client t)) (b := s.totalWeight - (s.client t).weight)
    simp only [ok_bind, ok_div, ok_add, ok_pure, val_sub, val_mul,
      val_div, and_true]
    change (_ ∧ (Check.int128 ((lagAt s.vtime (s.client t)).tdiv _)).Ok) ∧
      (Check.int128 (s.vtime + (lagAt s.vtime (s.client t)).tdiv _)).Ok
    generalize (lagAt s.vtime (s.client t)).tdiv (s.totalWeight - (s.client t).weight) = dv at hv hneg hnonneg ⊢
    refine ⟨⟨hw, ?_⟩, ?_⟩ <;> rw [Check.ok_int128] <;> dsimp only at hv <;> omega

/-! ## Runs -/

theorem cmpExact_of_lt {a b : Int} (h1 : -2 ^ 126 ≤ a - b) (h2 : a - b < 2 ^ 126) : CmpExact a b := by
  unfold CmpExact SCHED_FIXED_POINT
  rw [Check.ok_int128]
  omega

/-- The bounds under which the arithmetic is exact. -/
structure Small (s : State) : Prop where
  inv : Inv s
  now : s.now.toNat < 2 ^ 62
  drift : s.drift ≤ 2 ^ 123

namespace Small

variable {s : State}

theorem last (h : Small s) : s.sched.lastUpdate.toNat < 2 ^ 62 :=
  Nat.lt_of_le_of_lt (UInt64.le_iff_toNat_le.1 h.inv.clock) h.now

theorem times (h : Small s) : ∀ x ∈ s.sched.times, -2 ^ 123 ≤ x ∧ x ≤ 2 ^ 125 - 2 ^ 63 + 2 ^ 123 := by
  intro x hx
  have hb := h.inv.sched.times_bounds x hx
  have hf := fixed_lt h.last
  have hd := h.drift
  omega

theorem deadlines (h : Small s) :
    ∀ x ∈ s.sched.deadlines, -2 ^ 123 ≤ x ∧ x ≤ 2 ^ 125 - 2 ^ 63 + 2 ^ 123 + 10 ^ 7 * 2 ^ 63 := by
  intro x hx
  have hb := h.inv.sched.deadlines_bounds x hx
  have hf := fixed_lt h.last
  have hd := h.drift
  omega

theorem vtime (h : Small s) : -2 ^ 126 ≤ s.sched.vtime ∧ s.sched.vtime ≤ 2 ^ 126 := by
  have := h.times _ mem_cons_self
  omega

theorem step (h : Small s) (hb : DriftBelow s a) (hs : step s a = some s') : Small s' :=
  ⟨inv_step h.inv hs, (hb.after hs).1, (hb.after hs).2⟩

theorem lagSum (h : Small s) : CmpExact s.sched.lagSum 0 := by
  have hl := h.inv.sched.lagSum_bounds
  have hf := fixed_lt h.last
  exact cmpExact_of_lt (by omega) (by omega)

end Small

@[simp] theorem sched_after (s : State) (now : UInt64) (sched : sched_t) : (s.after now sched).sched = sched := by
  unfold State.after
  split <;> rfl

@[simp] theorem now_after (s : State) (now : UInt64) (sched : sched_t) : (s.after now sched).now = now := by
  unfold State.after
  split <;> rfl

theorem enter_ok {priority : Nat} (h : Small s)
    (h' : Small (s.after uptime (sched_enter s.sched t priority uptime).val)) (hle : s.now ≤ uptime)
    (hrun : ∀ t, s.sched.runThread = some t → t ∈ s.sched.runqueue ∨ s.sched.runqueue = []) :
    (sched_enter s.sched t priority uptime).Ok := by
  have hv := h'.vtime
  have ht := h'.now
  rw [sched_after, sched_enter, val_bind, insert_val] at hv
  rw [now_after] at ht
  exact (ok_bind _ _).2
    ⟨vtime_update_ok h.inv.sched hrun (UInt64.le_trans h.inv.clock hle) ht h.drift, insert_ok hv⟩

/-- The values a step computes fit, if the states before and after it are small. -/
theorem exec_ok {r : Traced State} (h : Small s) (h' : Small r.val) (hr : exec s a = some r) : r.Ok := by
  cases a with
  | start t priority =>
    obtain ⟨-, ⟨⟩⟩ := ite_none_right_eq_some.1 hr
    refine (ok_bind _ _).2 ⟨?_, ok_pure _⟩
    exact (ok_bind _ _).2 ⟨insert_ok h.vtime, ok_pure _⟩
  | submit t priority uptime =>
    obtain ⟨⟨hd, -, -, hle⟩, ⟨⟩⟩ := ite_none_right_eq_some.1 hr
    exact (ok_bind _ _).2
      ⟨enter_ok h h' hle fun t ht => .inl (h.inv.running hd t ht), ok_pure _⟩
  | steal t uptime =>
    obtain ⟨⟨-, ht, -, -⟩, ⟨⟩⟩ := ite_none_right_eq_some.1 hr
    have hv := h'.vtime
    simp only [val_bind, val_pure, sched_after] at hv
    exact (ok_bind _ _).2 ⟨leave_ok h.inv.sched ht h.last h.drift hv, ok_pure _⟩
  | enterDo uptime =>
    obtain ⟨⟨hd, -, hle⟩, ⟨⟩⟩ := ite_none_right_eq_some.1 hr
    have hn := h'.now
    simp only [val_bind, val_pure, now_after] at hn
    exact (ok_bind _ _).2 ⟨vtime_update_ok h.inv.sched (fun t ht => .inl (h.inv.running hd t ht))
      (UInt64.le_trans h.inv.clock hle) hn h.drift, ok_pure _⟩
  | leave =>
    simp only [exec] at hr
    split at hr
    · obtain ⟨⟨-, ht⟩, ⟨⟩⟩ := ite_none_right_eq_some.1 hr
      have hv := h'.vtime
      simp only [val_bind, val_pure, sched_after] at hv
      exact (ok_bind _ _).2 ⟨leave_ok h.inv.sched ht h.last h.drift hv, ok_pure _⟩
    · cases hr
  | pull t priority uptime =>
    obtain ⟨⟨-, hq, -, hle⟩, ⟨⟩⟩ := ite_none_right_eq_some.1 hr
    exact (ok_bind _ _).2 ⟨enter_ok h h' hle fun _ _ => .inr hq, ok_pure _⟩
  | switchTo next =>
    obtain ⟨-, ⟨⟩⟩ := ite_none_right_eq_some.1 hr
    exact ok_pure _

theorem exact_of_small (h : Small s) (hb : DriftBelow s a) : Exact s a := by
  intro r hr
  have h' : Small r.val := h.step hb (map_eq_some_iff.2 ⟨r, hr, rfl⟩)
  refine ⟨exec_ok h h' hr, fun x hx y hy => ?_, fun x hx y hy => ?_, h'.lagSum⟩
  · have hx' := (mem_append.1 hx).elim (h.times x) (h'.times x)
    have hy' := (mem_append.1 hy).elim (h.times y) (h'.times y)
    exact cmpExact_of_lt (by omega) (by omega)
  · have hx' := (mem_append.1 hx).elim (h.deadlines x) (h'.deadlines x)
    have hy' := (mem_append.1 hy).elim (h.deadlines y) (h'.deadlines y)
    exact cmpExact_of_lt (by omega) (by omega)

theorem small_init : Small init := ⟨inv_init, by decide, by decide⟩

/-- The arithmetic of the scheduler is exact along every run with uptimes below
`2 ^ 62` in which the square of the number of operations since the runqueue was
last empty, times the largest total weight since, stays at or below `2 ^ 123`. -/
theorem exact_while_drift_below (as : List Action) (h : Along step DriftBelow init as) : Along step Exact init as :=
  h.along (fun _ _ _ hs hb => hs.step hb) (fun _ _ => exact_of_small) small_init

/-- Two threads of weights 1 and 2: the first runs for a nanosecond, then the
second blocks. -/
def remainderRun : List Action :=
  [.start 0 0, .submit 1 1 0, .enterDo 1, .switchTo (some 1), .enterDo 1, .leave, .switchTo (some 0)]

theorem remainderRun_exact : Along step DriftBelow init remainderRun ∧ Along step Exact init remainderRun :=
  have h : Along step DriftBelow init remainderRun := by decide +kernel
  ⟨h, exact_while_drift_below remainderRun h⟩

/-- Along every run no queued thread is owed, or ahead by, more service than the uptime, its
deadline is its time slice after it becomes eligible, and outside `sched_do` the thread that
runs is queued. -/
theorem lag_within_uptime (as : List Action) :
    Always step (fun s => s.sched.runqueue.Nodup ∧
      (∀ t ∈ s.sched.runqueue, |lagAt s.sched.vtime (s.sched.client t)| ≤ fixed s.sched.lastUpdate ∧
        (s.sched.client t).vdeadline = (s.sched.client t).veligible + share (s.sched.client t).weight) ∧
      (s.inDo = false → ∀ t ∈ s.sched.runThread, t ∈ s.sched.runqueue)) init as := by
  refine (inv_always as).mono fun s h => ⟨h.sched.nodup, fun t ht => ⟨?_, h.sched.deadline t ht⟩, h.running⟩
  have hbounds := h.sched.lag_bounds ht
  exact abs_le.2 hbounds

/-! ## A run that overflows

After `remainderRun` the first thread is alone and the virtual time is two
units short of its eligible time. From then on one thread takes over from the
other, again and again, at the same uptime: each thread that leaves takes its
lag of minus two units out of the virtual time, and the next one has entered at
the virtual time before that. -/

/-- Thread `t` of weight 1 is alone and running, two units before its eligible time. -/
structure Lone (s : State) (t : Nat) (x : Int) : Prop where
  queue : s.sched.runqueue = [t]
  run : s.sched.runThread = some t
  total : s.sched.totalWeight = 1
  weight : (s.sched.client t).weight = 1
  eligible : (s.sched.client t).veligible = x + 2
  vtime : s.sched.vtime = x
  inDo : s.inDo = false
  last : s.sched.lastUpdate = 1
  now : s.now = 1

/-- A second thread `u` of weight 1 has entered at the virtual time. -/
structure Pair (s : State) (t u : Nat) (x : Int) (inDo : Bool) : Prop where
  queue : s.sched.runqueue.Perm [u, t]
  run : s.sched.runThread = some t
  total : s.sched.totalWeight = 2
  weight : (s.sched.client t).weight = 1 ∧ (s.sched.client u).weight = 1
  eligible : (s.sched.client t).veligible = x + 2 ∧ (s.sched.client u).veligible = x
  vtime : s.sched.vtime = x
  inDo : s.inDo = inDo
  last : s.sched.lastUpdate = 1
  now : s.now = 1

/-- An update at the time of the last one moves no virtual time. -/
theorem client_advanced_now (s : sched_t) (r t : Nat) :
    ((advanced s r s.lastUpdate).client t).weight = (s.client t).weight ∧
      ((advanced s r s.lastUpdate).client t).veligible = (s.client t).veligible := by
  simp only [advanced, UInt64.sub_self, UInt64.toNat_zero, Nat.cast_zero, zero_mul]
  by_cases h : t = r
  · rw [h, update_self]
    simp [ranFor]
  · rw [update_of_ne h]
    exact ⟨rfl, rfl⟩

theorem vtime_advanced_now (s : sched_t) (r : Nat) : (advanced s r s.lastUpdate).vtime = s.vtime := by
  simp [advanced]

theorem lone_submit (h : Lone s t x) (hne : u ≠ t) :
    ∃ s', step s (.submit u 0 1) = some s' ∧ Pair s' t u x false := by
  refine ⟨_, by
    rw [step, exec, if_pos ⟨h.inDo, by simp [h.queue, hne], by decide, h.now ▸ UInt64.le_refl _⟩]
    rfl, ?_⟩
  have hu := vtime_update_running 1 h.run (by rw [h.total]; decide)
  have hc := client_advanced_now s.sched t
  have hv := vtime_advanced_now s.sched t
  rw [h.last] at hc hv
  have hperm : (advanced s.sched t 1).runqueue.Perm [t] := (rbtree_fix_perm _ _ _).trans (.of_eq h.queue)
  have hinDo : ∀ sched, (s.after 1 sched).inDo = false := fun sched => by
    unfold State.after
    split <;> exact h.inDo
  simp only [val_bind, val_pure, sched_enter, hu, insert_val]
  refine ⟨?_, ?_, ?_, ?_, ?_, ?_, hinDo _, ?_, now_after _ _ _⟩ <;> rw [sched_after] <;> dsimp only
  · exact (rbtree_insert_perm _ _ _).trans (hperm.cons u)
  · exact h.run
  · rw [show (advanced s.sched t 1).totalWeight = s.sched.totalWeight from rfl, h.total]
    rfl
  · rw [update_self, update_of_ne hne.symm, (hc t).1, h.weight]
    exact ⟨rfl, rfl⟩
  · rw [update_self, update_of_ne hne.symm, (hc t).2, h.eligible]
    exact ⟨rfl, hv.trans h.vtime⟩
  · exact hv.trans h.vtime
  · rfl

theorem pair_enterDo (h : Pair s t u x false) : ∃ s', step s (.enterDo 1) = some s' ∧ Pair s' t u x true := by
  refine ⟨_, by
    rw [step, exec, if_pos ⟨h.inDo, by simp [h.run], h.now ▸ UInt64.le_refl _⟩]
    rfl, ?_⟩
  have hu := vtime_update_running 1 h.run (by rw [h.total]; decide)
  have hc := client_advanced_now s.sched t
  have hv := vtime_advanced_now s.sched t
  rw [h.last] at hc hv
  simp only [val_bind, val_pure, hu]
  refine ⟨?_, ?_, ?_, ?_, ?_, ?_, rfl, ?_, now_after _ _ _⟩ <;> dsimp only <;> rw [sched_after]
  · exact (rbtree_fix_perm _ _ _).trans h.queue
  · exact h.run
  · exact h.total
  · exact ⟨(hc t).1.trans h.weight.1, (hc u).1.trans h.weight.2⟩
  · exact ⟨(hc t).2.trans h.eligible.1, (hc u).2.trans h.eligible.2⟩
  · exact hv.trans h.vtime
  · rfl

/-- The virtual time after a thread has left is one of the values computed. -/
theorem vtime_fits_of_leave_ok {s : sched_t}
    (hw : s.totalWeight - (s.client t).weight ≠ 0) (h : (sched_leave s t uptime).Ok) :
    -2 ^ 127 ≤ s.vtime + (lagAt s.vtime (s.client t)).tdiv (s.totalWeight - (s.client t).weight) := by
  obtain ⟨-, h⟩ := (ok_bind _ _).1 h
  obtain ⟨-, h⟩ := (ok_bind _ _).1 h
  rw [if_neg hw] at h
  obtain ⟨-, h⟩ := (ok_bind _ _).1 h
  obtain ⟨h, -⟩ := (ok_bind _ _).1 h
  rw [ok_add, Check.ok_int128] at h
  exact h.1

/-- The thread that leaves takes its lag out of the virtual time. -/
theorem pair_leave (h : Pair s t u x true) (hne : u ≠ t) :
    ∃ r, exec s .leave = some r ∧ r.val.sched.runqueue = [u] ∧ r.val.sched.totalWeight = 1 ∧
      r.val.sched.client = s.sched.client ∧ r.val.sched.vtime = x - 2 ∧ r.val.inDo = true ∧
      r.val.sched.lastUpdate = 1 ∧ r.val.now = 1 ∧ (r.Ok → -2 ^ 127 ≤ x - 2) := by
  have ht : t ∈ s.sched.runqueue := h.queue.mem_iff.2 (by simp)
  have hw : s.sched.totalWeight - (s.sched.client t).weight = 1 := by rw [h.total, h.weight.1]; rfl
  have hlag : lagAt s.sched.vtime (s.sched.client t) = -2 := by
    rw [lagAt, h.vtime, h.eligible.1, h.weight.1]
    omega
  have hval := leave_val s.now (show s.sched.totalWeight - (s.sched.client t).weight ≠ 0 by omega)
  rw [hlag, hw, h.vtime] at hval
  refine ⟨do return s.after s.now (← sched_leave s.sched t s.now), ?_, ?_⟩
  · simp only [exec, h.run]
    exact if_pos ⟨h.inDo, ht⟩
  · have hqueue : s.sched.runqueue.erase t = [u] := by
      have hp := h.queue.erase t
      rw [erase_cons_tail (by simpa using hne), erase_cons_head] at hp
      exact perm_singleton.1 hp
    simp only [val_bind, val_pure, hval, sched_after, now_after]
    refine ⟨hqueue, trivial, trivial, by rw [Int.tdiv_one]; omega, ?_, h.last, h.now, fun hok => ?_⟩
    · unfold State.after
      split <;> exact h.inDo
    · have hfit := vtime_fits_of_leave_ok (by omega) ((ok_bind _ _).1 hok).1
      rw [hlag, hw, h.vtime, Int.tdiv_one] at hfit
      omega

/-- Thread `u` takes over from the thread that runs. -/
def takeOver (u : Nat) : List Action := [.submit u 0 1, .enterDo 1, .leave, .switchTo (some u)]

theorem step_of_exec {r : Traced State} (h : exec s a = some r) : step s a = some r.val := by
  rw [step, h]
  rfl

theorem uptimeBelow_of_step (h : step s a = some s') (hn : s'.now = 1) : UptimeBelow s a := by
  unfold UptimeBelow
  rw [h]
  dsimp only
  rw [hn]
  decide

theorem lone_takeOver (h : Lone s t x) (hne : u ≠ t) :
    ∃ s', run step s (takeOver u) = some s' ∧ Lone s' u (x - 2) ∧ Along step UptimeBelow s (takeOver u) ∧
      (Along step Exact s (takeOver u) → -2 ^ 127 ≤ x - 2) := by
  obtain ⟨s1, h1, p1⟩ := lone_submit h hne
  obtain ⟨s2, h2, p2⟩ := pair_enterDo p1
  obtain ⟨r, hr, hq, hW, hc, hv, hd, hl, hn, hok⟩ := pair_leave p2 hne
  have h3 := step_of_exec hr
  obtain ⟨s4, h4, hs4⟩ : ∃ s4, step r.val (.switchTo (some u)) = some s4 ∧
      s4 = { r.val with sched := { r.val.sched with runThread := some u }, inDo := false } := by
    refine ⟨_, ?_, rfl⟩
    rw [step, exec, if_pos ⟨hd, by simp [hq], by simp⟩]
    rfl
  have hn4 : s4.now = 1 := by rw [hs4]; exact hn
  refine ⟨s4, by simp only [takeOver, run, h1, h2, h3, h4, bind_some], ?_, ?_, fun hex => ?_⟩
  · subst hs4
    refine ⟨hq, rfl, hW, ?_, ?_, hv, rfl, hl, hn⟩
    · rw [hc]
      exact p2.weight.2
    · rw [hc, p2.eligible.2]
      omega
  · simp only [takeOver, Along, h1, h2, h3, h4, Option.some.injEq, forall_eq', and_true]
    exact ⟨uptimeBelow_of_step h1 p1.now, uptimeBelow_of_step h2 p2.now, uptimeBelow_of_step h3 hn,
      uptimeBelow_of_step h4 hn4⟩
  · simp only [takeOver, Along, h1, h2, h3, Option.some.injEq, forall_eq'] at hex
    exact hok (hex.2.2.1 r hr).1

/-- Threads 0 and 1 take over from each other `n` times. -/
theorem lone_rounds (h : Lone s 0 x) (n : Nat) :
    ∃ as s' t, run step s as = some s' ∧ Lone s' t (x - 2 * n) ∧ Along step UptimeBelow s as := by
  induction n with
  | zero => exact ⟨[], s, 0, rfl, by simpa using h, trivial⟩
  | succ n ih =>
    obtain ⟨as, s', t, hr, hlone, hup⟩ := ih
    obtain ⟨s'', hr', hlone', hup', -⟩ := lone_takeOver hlone (show t + 1 ≠ t by omega)
    refine ⟨as ++ takeOver (t + 1), s'', t + 1, by rw [run_append hr]; exact hr', ?_, (along_append hr).2 ⟨hup, hup'⟩⟩
    have hx : x - 2 * ((n + 1 : Nat) : Int) = x - 2 * n - 2 := by push_cast; ring
    rwa [hx]

theorem remainderRun_lone : ∃ s, run step init remainderRun = some s ∧ Lone s 0 (2 ^ 63 - 2) := by
  obtain ⟨s, hs, h1, h2, h3, h4, h5, h6, h7, h8, h9⟩ := run_to step init remainderRun (fun s =>
    s.sched.runqueue = [0] ∧ s.sched.runThread = some 0 ∧ s.sched.totalWeight = 1 ∧ (s.sched.client 0).weight = 1 ∧
    (s.sched.client 0).veligible = 2 ^ 63 ∧ s.sched.vtime = 2 ^ 63 - 2 ∧ s.inDo = false ∧ s.sched.lastUpdate = 1 ∧
    s.now = 1) (by decide +kernel)
  exact ⟨s, hs, h1, h2, h3, h4, h5.trans (by norm_num), h6, h7, h8, h9⟩

/-- Uptimes below `2 ^ 62` do not keep the virtual time within 128 bits. -/
theorem vtime_overflows : ∃ as, Along step UptimeBelow init as ∧ ¬ Along step Exact init as := by
  obtain ⟨s, hs, hlone⟩ := remainderRun_lone
  obtain ⟨as, s', t, hr, hlone', hup⟩ := lone_rounds hlone (2 ^ 127)
  obtain ⟨s'', -, -, hup', hex⟩ := lone_takeOver hlone' (show t + 1 ≠ t by omega)
  have hup0 : Along step UptimeBelow init remainderRun := by decide +kernel
  refine ⟨remainderRun ++ (as ++ takeOver (t + 1)), ?_, fun h => ?_⟩
  · exact (along_append hs).2 ⟨hup0, (along_append hr).2 ⟨hup, hup'⟩⟩
  · have hlow := hex ((along_append hr).1 ((along_append hs).1 h).2).2
    norm_num at hlow

end Patchwork.Sched
