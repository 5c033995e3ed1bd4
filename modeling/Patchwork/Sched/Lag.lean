import Patchwork.Lib.Runs
import Patchwork.Sched.Queue
/-!
# Conservation of lag

The lags of the threads in the runqueue sum to zero, up to the remainders of
the divisions. Each operation on the runqueue divides at most twice, by the
total weight and by one of its parts, so it moves the sum by less than the
total weight; `SchedInv` carries the bound `L` on the sum through every
operation, together with the bounds on the virtual times that follow from it.
-/

namespace Patchwork.Sched

open List Option Function Lib

/-- A real time as a fixed-point number. -/
def fixed (uptime : UInt64) : Int := uptime.toNat * 2 ^ SCHED_FIXED_POINT

/-- The time slice of a thread in virtual time. -/
def share (weight : Int) : Int := (CONFIG_TIME_SLICE * 2 ^ SCHED_FIXED_POINT).tdiv weight

/-- The sum of the lags of the threads in the runqueue. -/
def sched_t.lagSum (s : sched_t) : Int := queueSum s.client s.runqueue (lagAt s.vtime)

/-- The invariant of a scheduler: `L` bounds the lag and `d` how far rounding
has taken virtual times beyond the time that has passed. -/
structure SchedInv (s : sched_t) (L d : Int) : Prop where
  nodup : s.runqueue.Nodup
  total : s.totalWeight = queueSum s.client s.runqueue (·.weight)
  weight : ∀ t ∈ s.runqueue, 1 ≤ (s.client t).weight ∧ (s.client t).weight ≤ PRIORITY_MAX + 1
  lag : |s.lagSum| ≤ L
  pos : queueSum s.client s.runqueue (posLagAt s.vtime) ≤ fixed s.lastUpdate
  neg : queueSum s.client s.runqueue (negLagAt s.vtime) ≤ fixed s.lastUpdate
  vtime : -d ≤ s.vtime ∧ s.vtime ≤ fixed s.lastUpdate + d
  eligible : ∀ t ∈ s.runqueue, -d ≤ (s.client t).veligible ∧ (s.client t).veligible ≤ fixed s.lastUpdate + d
  deadline : ∀ t ∈ s.runqueue, (s.client t).vdeadline = (s.client t).veligible + share (s.client t).weight

variable {t priority : Nat} {uptime : UInt64}

namespace SchedInv

variable {s : sched_t} {L d : Int} (h : SchedInv s L d)
include h

theorem mono {L' d' : Int} (hL : L ≤ L') (hd : d ≤ d') : SchedInv s L' d' :=
  { h with
    lag := h.lag.trans hL
    vtime := ⟨by have := h.vtime; omega, by have := h.vtime; omega⟩
    eligible := fun t ht => ⟨by have := h.eligible t ht; omega, by have := h.eligible t ht; omega⟩ }

theorem weight_nonneg : ∀ t ∈ s.runqueue, 0 ≤ (s.client t).weight :=
  fun t ht => by have := h.weight t ht; omega

theorem weight_le_total (ht : t ∈ s.runqueue) : (s.client t).weight ≤ s.totalWeight := by
  rw [h.total]
  exact le_queueSum h.weight_nonneg ht

theorem total_pos (ht : t ∈ s.runqueue) : 0 < s.totalWeight := by
  have := h.weight t ht
  have := h.weight_le_total ht
  omega

theorem total_nonneg : 0 ≤ s.totalWeight := by
  rw [h.total]
  exact queueSum_nonneg h.weight_nonneg

end SchedInv

theorem fixed_nonneg (uptime : UInt64) : 0 ≤ fixed uptime := by
  unfold fixed
  positivity

theorem fixed_mono {a b : UInt64} (h : a ≤ b) : fixed a ≤ fixed b := by
  have : (a.toNat : Int) ≤ b.toNat := by exact_mod_cast UInt64.le_iff_toNat_le.1 h
  exact mul_le_mul_of_nonneg_right this (by positivity)

theorem fixed_sub {a b : UInt64} (h : a ≤ b) : ((b - a).toNat : Int) * 2 ^ SCHED_FIXED_POINT = fixed b - fixed a := by
  unfold fixed
  rw [UInt64.toNat_sub_of_le _ _ h, Nat.cast_sub (UInt64.le_iff_toNat_le.1 h), sub_mul]

variable {s : sched_t}

theorem schedInv_empty (hq : s.runqueue = []) (hw : s.totalWeight = 0) (hv : s.vtime = 0) : SchedInv s 0 0 := by
  have h0 := fixed_nonneg s.lastUpdate
  constructor <;> simp [hq, hw, hv, sched_t.lagSum, h0]

/-! ## Updating the virtual time -/

theorem vtime_update_idle (uptime : UInt64) (h : s.runThread = none ∨ s.totalWeight = 0) :
    (sched_vtime_update s uptime).val = sched_vtime_reset s uptime := by
  unfold sched_vtime_update
  rcases h with h | h
  · rw [h]
    rfl
  · cases s.runThread with
    | none => rfl
    | some r =>
      simp only [h, if_true]
      rfl

variable {L d : Int}

/-- A reset changes only the clock when nothing has happened since the last one. -/
theorem SchedInv.reset (h : SchedInv s L d) (hle : s.lastUpdate ≤ uptime)
    (hv : s.vtime = 0) : SchedInv (sched_vtime_reset s uptime) L d := by
  have hf := fixed_mono hle
  have heq : sched_vtime_reset s uptime = { s with lastUpdate := uptime } := by
    rw [sched_vtime_reset, ← hv]
  rw [heq]
  exact { h with
    pos := h.pos.trans hf
    neg := h.neg.trans hf
    vtime := ⟨h.vtime.1, h.vtime.2.trans (by simpa using hf)⟩
    eligible := fun t ht => ⟨(h.eligible t ht).1, (h.eligible t ht).2.trans (by simpa using hf)⟩ }

/-- The context of the running thread after `D` of fixed-point time. -/
def ranFor (c : sched_client_t) (D : Int) : sched_client_t :=
  let veligible := c.veligible + D.tdiv c.weight
  { c with veligible, vminEligible := veligible, vdeadline := veligible + share c.weight }

/-- The scheduler after its thread `r` ran until `uptime`. -/
def advanced (s : sched_t) (r : Nat) (uptime : UInt64) : sched_t :=
  let D := ((uptime - s.lastUpdate).toNat : Int) * 2 ^ SCHED_FIXED_POINT
  let client := update s.client r (ranFor (s.client r) D)
  { s with lastUpdate := uptime, vtime := s.vtime + D.tdiv s.totalWeight, client
           runqueue := rbtree_fix client s.runqueue r }

theorem vtime_update_running {r : Nat} (uptime : UInt64) (hr : s.runThread = some r)
    (hw : s.totalWeight ≠ 0) : (sched_vtime_update s uptime).val = advanced s r uptime := by
  unfold sched_vtime_update advanced
  simp only [hr, if_neg hw]
  rfl

/-- Running changes the eligible time by the time run over the weight. -/
theorem lagAt_ranFor (v D : Int) (c : sched_client_t) :
    lagAt v (ranFor c D) = lagAt v c - c.weight * D.tdiv c.weight := by
  unfold lagAt ranFor
  ring

theorem weight_update_ranFor (client : Nat → sched_client_t) (r t : Nat) (D : Int) :
    (update client r (ranFor (client r) D) t).weight = (client t).weight := by
  by_cases h : t = r
  · rw [h, update_self]
    rfl
  · rw [update_of_ne h]

theorem tdiv_le_self {a b : Int} (ha : 0 ≤ a) (hb : 0 < b) : 0 ≤ a.tdiv b ∧ a.tdiv b ≤ a :=
  ⟨Int.tdiv_nonneg ha hb.le, by
    have h0 := Int.tdiv_nonneg ha hb.le
    have h1 := (mul_tdiv_bounds a hb).1 ha
    nlinarith⟩

theorem SchedInv.advanced {r : Nat} (h : SchedInv s L d) (hr : r ∈ s.runqueue) (hle : s.lastUpdate ≤ uptime) :
    SchedInv (advanced s r uptime) (L + s.totalWeight) d := by
  unfold Sched.advanced
  rw [fixed_sub hle]
  have hf := fixed_mono hle
  generalize hD : fixed uptime - fixed s.lastUpdate = D
  have hD0 : 0 ≤ D := by omega
  have hW := h.total_pos hr
  have hw := h.weight r hr
  have hwW := h.weight_le_total hr
  have hw0 : 0 < (s.client r).weight := by omega
  have hqW := (mul_tdiv_bounds D hW).1 hD0
  have hqw := (mul_tdiv_bounds D hw0).1 hD0
  have hrW := abs_lt.1 (abs_sub_mul_tdiv_lt D hW)
  have hrw := abs_lt.1 (abs_sub_mul_tdiv_lt D hw0)
  have hdv := tdiv_le_self hD0 hW
  have hdr := tdiv_le_self hD0 hw0
  have hmem : ∀ {t}, t ∈ rbtree_fix (update s.client r (ranFor (s.client r) D)) s.runqueue r →
      t ∈ s.runqueue := fun ht => (rbtree_fix_perm _ _ _).mem_iff.1 ht
  -- Sums at the new contexts, in terms of the old ones.
  have hsum : ∀ f, queueSum (update s.client r (ranFor (s.client r) D))
      (rbtree_fix (update s.client r (ranFor (s.client r) D)) s.runqueue r) f =
      queueSum s.client s.runqueue f - f (s.client r) + f (ranFor (s.client r) D) := fun f => by
    rw [queueSum_perm (rbtree_fix_perm _ _ _), queueSum_update_mem h.nodup hr]
  constructor
  case nodup => exact (rbtree_fix_perm _ _ _).nodup_iff.2 h.nodup
  case total =>
    rw [hsum, h.total]
    simp [ranFor]
  case weight =>
    intro t ht
    rw [weight_update_ranFor]
    exact h.weight t (hmem ht)
  case lag =>
    have hlag := abs_le.1 h.lag
    unfold sched_t.lagSum at hlag ⊢
    rw [hsum, queueSum_lagAt_add, lagAt_ranFor, ← h.total, mul_comm (D.tdiv s.totalWeight), abs_le]
    omega
  case pos =>
    have hshift := queueSum_posLagAt_add h.weight_nonneg s.vtime (D.tdiv s.totalWeight)
    rw [← h.total, mul_comm, max_eq_left hqW.1] at hshift
    have hpos := h.pos
    rw [hsum]
    simp only [posLagAt, lagAt_ranFor] at hshift hpos ⊢
    omega
  case neg =>
    have hshift := queueSum_negLagAt_add h.weight_nonneg s.vtime (D.tdiv s.totalWeight)
    rw [← h.total, mul_comm, max_eq_right (neg_nonpos.2 hqW.1)] at hshift
    have hneg := h.neg
    rw [hsum]
    simp only [negLagAt, lagAt_ranFor] at hshift hneg ⊢
    omega
  case vtime =>
    have hv := h.vtime
    dsimp only
    omega
  case eligible =>
    intro t ht
    have he := h.eligible t (hmem ht)
    dsimp only
    by_cases htr : t = r
    · subst htr
      rw [update_self]
      simp only [ranFor]
      omega
    · rw [update_of_ne htr]
      omega
  case deadline =>
    intro t ht
    dsimp only
    by_cases htr : t = r
    · rw [htr, update_self]
      rfl
    · rw [update_of_ne htr]
      exact h.deadline t (hmem ht)

/-! ## Entering and leaving the runqueue -/

/-- The context of a thread that enters at virtual time `v`. -/
def entered (c : sched_client_t) (priority : Nat) (v : Int) : sched_client_t :=
  let weight := priority + SCHED_WEIGHT_BASE
  { c with weight, veligible := v, vminEligible := v, vdeadline := v + share weight }

theorem insert_val (s : sched_t) (t priority : Nat) :
    (sched_insert s t priority).val =
      { s with
        totalWeight := s.totalWeight + (priority + SCHED_WEIGHT_BASE)
        client := update s.client t (entered (s.client t) priority s.vtime)
        runqueue := rbtree_insert (update s.client t (entered (s.client t) priority s.vtime)) s.runqueue t } :=
  rfl

theorem SchedInv.insert (h : SchedInv s L d) (ht : t ∉ s.runqueue)
    (hp : priority ≤ PRIORITY_MAX) : SchedInv (sched_insert s t priority).val L d := by
  rw [insert_val]
  generalize hc : entered (s.client t) priority s.vtime = c
  have hlag : lagAt s.vtime c = 0 := by simp [← hc, lagAt, entered]
  have hperm := rbtree_insert_perm (update s.client t c) s.runqueue t
  have hsum : ∀ f, queueSum (update s.client t c)
      (rbtree_insert (update s.client t c) s.runqueue t) f = f c + queueSum s.client s.runqueue f :=
    fun f => by rw [queueSum_perm hperm, queueSum_cons, queueSum_update_notMem ht, update_self]
  -- What holds of the context that enters and of those in the runqueue holds of all.
  have hall : ∀ P : sched_client_t → Prop, P c → (∀ u ∈ s.runqueue, P (s.client u)) →
      ∀ u ∈ rbtree_insert (update s.client t c) s.runqueue t, P (update s.client t c u) := by
    intro P hPc hP u hu
    rcases mem_cons.1 (hperm.mem_iff.1 hu) with hut | hq
    · rwa [hut, update_self]
    · have hne : u ≠ t := fun hut => ht (hut ▸ hq)
      rw [update_of_ne hne]
      exact hP u hq
  constructor
  case nodup => exact hperm.nodup_iff.2 (nodup_cons.2 ⟨ht, h.nodup⟩)
  case total =>
    rw [hsum, h.total, ← hc, add_comm]
    rfl
  case weight =>
    refine hall (fun c => 1 ≤ c.weight ∧ c.weight ≤ PRIORITY_MAX + 1) ?_ h.weight
    rw [← hc]
    simp only [entered, SCHED_WEIGHT_BASE]
    omega
  case lag =>
    unfold sched_t.lagSum
    rw [hsum, hlag, zero_add]
    exact h.lag
  case pos =>
    rw [hsum, posLagAt, hlag, max_self, zero_add]
    exact h.pos
  case neg =>
    rw [hsum, negLagAt, hlag, neg_zero, max_self, zero_add]
    exact h.neg
  case vtime => exact h.vtime
  case eligible =>
    refine hall (fun c => -d ≤ c.veligible ∧ c.veligible ≤ fixed s.lastUpdate + d) ?_ h.eligible
    rw [← hc]
    exact h.vtime
  case deadline =>
    refine hall (fun c => c.vdeadline = c.veligible + share c.weight) ?_ h.deadline
    rw [← hc]
    rfl

theorem leave_val_last (uptime : UInt64) (hw : s.totalWeight - (s.client t).weight = 0) :
    (sched_leave s t uptime).val =
      { s with totalWeight := 0, runqueue := s.runqueue.erase t, lastUpdate := uptime, vtime := 0 } := by
  simp only [sched_leave, hw, Traced.val_bind, if_true, Traced.val_pure, sched_vtime_reset]

theorem leave_val (uptime : UInt64) (hw : s.totalWeight - (s.client t).weight ≠ 0) :
    (sched_leave s t uptime).val =
      { s with
        totalWeight := s.totalWeight - (s.client t).weight
        runqueue := s.runqueue.erase t
        vtime := s.vtime + (lagAt s.vtime (s.client t)).tdiv (s.totalWeight - (s.client t).weight) } := by
  simp only [sched_leave, Traced.val_bind, if_neg hw]
  rfl

theorem SchedInv.total_erase (h : SchedInv s L d) (ht : t ∈ s.runqueue) :
    s.totalWeight - (s.client t).weight = queueSum s.client (s.runqueue.erase t) (·.weight) := by
  rw [queueSum_erase ht, h.total]

theorem SchedInv.erase_eq_nil (h : SchedInv s L d) (ht : t ∈ s.runqueue)
    (hw : s.totalWeight - (s.client t).weight = 0) : s.runqueue.erase t = [] := by
  rw [h.total_erase ht] at hw
  by_contra hne
  obtain ⟨u, hu⟩ := exists_mem_of_ne_nil _ hne
  have hle : (s.client u).weight ≤ queueSum s.client (s.runqueue.erase t) (·.weight) :=
    le_queueSum (fun x hx => h.weight_nonneg x (mem_of_mem_erase hx)) hu
  have := h.weight u (mem_of_mem_erase hu)
  omega

/-- The bounds on the virtual time that follow from those on the lag. -/
theorem vtime_bounds {client : Nat → sched_client_t} {queue : List Nat} {v lo hi : Int}
    (hw : ∀ t ∈ queue, 0 ≤ (client t).weight) (hW : 1 ≤ queueSum client queue (·.weight))
    (hb : ∀ t ∈ queue, lo ≤ (client t).veligible ∧ (client t).veligible ≤ hi)
    (hL : |queueSum client queue (lagAt v)| ≤ L) : lo - L ≤ v ∧ v ≤ hi + L := by
  have h1 := queueSum_lagAt_le hw (fun t ht => (hb t ht).1) v
  have h2 := le_queueSum_lagAt hw (fun t ht => (hb t ht).2) v
  have h3 := abs_le.1 hL
  generalize queueSum client queue (·.weight) = W at h1 h2 hW
  constructor
  · by_contra hlt
    nlinarith
  · by_contra hlt
    nlinarith

theorem SchedInv.leave (uptime : UInt64) (h : SchedInv s L d)
    (ht : t ∈ s.runqueue) (hw : s.totalWeight - (s.client t).weight ≠ 0) :
    SchedInv (sched_leave s t uptime).val (L + s.totalWeight) (d + (L + s.totalWeight)) := by
  rw [leave_val uptime hw]
  have hW' := h.total_erase ht
  have hmem : ∀ {u}, u ∈ s.runqueue.erase t → u ∈ s.runqueue := fun hu => mem_of_mem_erase hu
  have hwt := h.weight t ht
  have hwW := h.weight_le_total ht
  have hL := abs_le.1 h.lag
  have hpos : 0 < s.totalWeight - (s.client t).weight := by omega
  have hdiv := abs_lt.1 (abs_sub_mul_tdiv_lt (lagAt s.vtime (s.client t)) hpos)
  have hbounds := mul_tdiv_bounds (lagAt s.vtime (s.client t)) hpos
  generalize hlag : lagAt s.vtime (s.client t) = lag at hdiv hbounds ⊢
  generalize hWe : s.totalWeight - (s.client t).weight = W at hW' hpos hdiv hbounds ⊢
  have hsum : ∀ f, queueSum s.client (s.runqueue.erase t) f = queueSum s.client s.runqueue f - f (s.client t) :=
    fun f => queueSum_erase ht
  have hwe : ∀ u ∈ s.runqueue.erase t, 0 ≤ (s.client u).weight := fun u hu => h.weight_nonneg u (hmem hu)
  have hlagSum : |queueSum s.client (s.runqueue.erase t) (lagAt (s.vtime + lag.tdiv W))| ≤ L + s.totalWeight := by
    unfold sched_t.lagSum at hL
    rw [queueSum_lagAt_add, ← hW', hsum, hlag, mul_comm, abs_le]
    omega
  constructor
  case nodup => exact h.nodup.erase t
  case total => exact hW'
  case weight => exact fun u hu => h.weight u (hmem hu)
  case lag => exact hlagSum
  case pos =>
    have hshift := queueSum_posLagAt_add hwe s.vtime (lag.tdiv W)
    rw [← hW', hsum (posLagAt s.vtime), mul_comm, posLagAt, hlag] at hshift
    have := h.pos
    dsimp only
    omega
  case neg =>
    have hshift := queueSum_negLagAt_add hwe s.vtime (lag.tdiv W)
    rw [← hW', hsum (negLagAt s.vtime), mul_comm, negLagAt, hlag] at hshift
    have := h.neg
    dsimp only
    omega
  case vtime =>
    have hb := vtime_bounds hwe (by rw [← hW']; exact hpos) (fun u hu => h.eligible u (hmem hu)) hlagSum
    dsimp only
    omega
  case eligible =>
    intro u hu
    have := h.eligible u (hmem hu)
    dsimp only
    omega
  case deadline => exact fun u hu => h.deadline u (hmem hu)

/-! ## Runs -/

/-- The bound on the lag after `ops` operations at total weights up to `wmax`. -/
def State.lagBound (s : State) : Int := s.ops * s.wmax

/-- The bound on the drift of the virtual times. -/
def State.drift (s : State) : Int := s.ops * (s.ops * s.wmax)

structure Inv (s : State) : Prop where
  sched : SchedInv s.sched s.lagBound s.drift
  total : s.sched.totalWeight ≤ s.wmax
  clock : s.sched.lastUpdate ≤ s.now
  /-- Outside `sched_do` the running thread is in the runqueue. -/
  running : s.inDo = false → ∀ t, s.sched.runThread = some t → t ∈ s.sched.runqueue
  /-- Virtual time stands still on an idle CPU. -/
  idle : s.sched.runThread = none ∨ s.sched.runqueue = [] →
    s.sched.vtime = 0 ∧ ∀ t ∈ s.sched.runqueue, (s.sched.client t).veligible = 0

variable {s s' : State} {a : Action}

theorem Inv.wmax_nonneg (h : Inv s) : 0 ≤ s.wmax :=
  h.sched.total_nonneg.trans h.total

theorem inv_init : Inv init where
  sched := schedInv_empty rfl rfl rfl
  total := le_rfl
  clock := UInt64.le_refl _
  running _ _ ht := by cases ht
  idle _ := ⟨rfl, fun _ ht => absurd ht not_mem_nil⟩

section
variable (h : Inv s)
include h

/-- What an operation has to establish, for the state after it to be as the
invariant says: it moves the lag by at most the largest total weight before it. -/
theorem inv_after {sched : sched_t} {now : UInt64}
    (hs : sched.runqueue ≠ [] → SchedInv sched (s.lagBound + s.wmax) (s.drift + (s.lagBound + s.wmax)))
    (hempty : sched.runqueue = [] → sched.totalWeight = 0 ∧ sched.vtime = 0)
    (hclock : sched.lastUpdate ≤ now)
    (hrun : s.inDo = false → ∀ t, sched.runThread = some t → t ∈ sched.runqueue)
    (hidle : sched.runThread = none → sched.vtime = 0 ∧ ∀ t ∈ sched.runqueue, (sched.client t).veligible = 0) :
    Inv (s.after now sched) := by
  have hidle' : sched.runThread = none ∨ sched.runqueue = [] →
      sched.vtime = 0 ∧ ∀ t ∈ sched.runqueue, (sched.client t).veligible = 0 := by
    rintro (hn | hq)
    · exact hidle hn
    · exact ⟨(hempty hq).2, fun t ht => absurd ht (by rw [hq]; exact not_mem_nil)⟩
  unfold State.after
  split
  · rename_i hq
    obtain ⟨hw, hv⟩ := hempty hq
    refine ⟨?_, hw.le, hclock, hrun, hidle'⟩
    exact (schedInv_empty hq hw hv).mono (by simp [State.lagBound]) (by simp [State.drift])
  · rename_i hq
    have hw0 := h.wmax_nonneg
    have hle : s.wmax ≤ max s.wmax sched.totalWeight := le_max_left _ _
    refine ⟨(hs hq).mono ?_ ?_, le_max_right _ _, hclock, hrun, hidle'⟩
    · unfold State.lagBound
      push_cast
      nlinarith [Int.natCast_nonneg s.ops]
    · unfold State.drift State.lagBound
      push_cast
      nlinarith [Int.natCast_nonneg s.ops, mul_nonneg (Int.natCast_nonneg s.ops) hw0,
        mul_nonneg (Int.natCast_nonneg s.ops) (sub_nonneg.2 hle),
        mul_nonneg (mul_nonneg (Int.natCast_nonneg s.ops) (Int.natCast_nonneg s.ops)) (sub_nonneg.2 hle)]

/-- What `sched_vtime_update` does in a state of a run. -/
structure Updated (s : State) (uptime : UInt64) (u : sched_t) : Prop where
  inv : SchedInv u (s.lagBound + s.wmax) s.drift
  total : u.totalWeight = s.sched.totalWeight
  queue : u.runqueue.Perm s.sched.runqueue
  run : u.runThread = s.sched.runThread
  clock : u.lastUpdate = uptime
  idle : s.sched.runThread = none ∨ s.sched.runqueue = [] →
    u.vtime = 0 ∧ ∀ t ∈ u.runqueue, (u.client t).veligible = 0

theorem inv_update (hle : s.now ≤ uptime)
    (hrun : ∀ t, s.sched.runThread = some t → t ∈ s.sched.runqueue ∨ s.sched.runqueue = []) :
    Updated s uptime (sched_vtime_update s.sched uptime).val := by
  have hlast : s.sched.lastUpdate ≤ uptime := UInt64.le_trans h.clock hle
  have hw0 := h.wmax_nonneg
  by_cases hidle : s.sched.runThread = none ∨ s.sched.runqueue = []
  · have hval : s.sched.runThread = none ∨ s.sched.totalWeight = 0 := by
      refine hidle.imp_right fun hq => ?_
      rw [h.sched.total, hq, queueSum_nil]
    rw [vtime_update_idle uptime hval]
    have hi := h.idle hidle
    exact ⟨(h.sched.reset hlast hi.1).mono (by omega) le_rfl, rfl, .refl _, rfl, rfl, fun _ => ⟨rfl, hi.2⟩⟩
  · push Not at hidle
    obtain ⟨r, hr⟩ := ne_none_iff_exists'.1 hidle.1
    have hmem : r ∈ s.sched.runqueue := (hrun r hr).resolve_right hidle.2
    have hW := h.sched.total_pos hmem
    rw [vtime_update_running uptime hr (by omega)]
    refine ⟨(h.sched.advanced hmem hlast).mono ?_ le_rfl, rfl, rbtree_fix_perm _ _ _, rfl, rfl, ?_⟩
    · have := h.total
      omega
    · rintro (hn | hq)
      · exact absurd hn hidle.1
      · exact absurd hq hidle.2

theorem inv_enterDo (hd : s.inDo = false) (hle : s.now ≤ uptime) :
    Inv { s.after uptime (sched_vtime_update s.sched uptime).val with inDo := true } := by
  have hu := inv_update h hle fun t ht => .inl (h.running hd t ht)
  generalize (sched_vtime_update s.sched uptime).val = u at hu ⊢
  have hi : Inv (s.after uptime u) := by
    refine inv_after h (fun _ => hu.inv.mono le_rfl ?_) (fun hq => ?_) ?_ (fun _ t ht => ?_) fun hn => ?_
    · have h1 := (abs_nonneg _).trans h.sched.lag
      have h2 := h.wmax_nonneg
      omega
    · have hq' : s.sched.runqueue = [] := (hu.queue.symm.trans (.of_eq hq)).eq_nil
      exact ⟨by rw [hu.total, h.sched.total, hq', queueSum_nil], (hu.idle (.inr hq')).1⟩
    · rw [hu.clock]
      exact UInt64.le_refl _
    · exact hu.queue.mem_iff.2 (h.running hd t (hu.run ▸ ht))
    · exact hu.idle (.inl (hu.run ▸ hn))
  exact { hi with running := fun hf => by cases hf }

theorem inv_enter (ht : t ∉ s.sched.runqueue) (hp : priority ≤ PRIORITY_MAX) (hle : s.now ≤ uptime)
    (hrun : ∀ t, s.sched.runThread = some t → t ∈ s.sched.runqueue ∨ s.sched.runqueue = []) :
    Inv (s.after uptime (sched_enter s.sched t priority uptime).val) := by
  have hu := inv_update h hle hrun
  simp only [sched_enter, Traced.val_bind]
  generalize (sched_vtime_update s.sched uptime).val = u at hu ⊢
  have htu : t ∉ u.runqueue := fun hm => ht (hu.queue.mem_iff.1 hm)
  have hins := hu.inv.insert htu hp
  rw [insert_val] at hins ⊢
  have hperm := rbtree_insert_perm (update u.client t (entered (u.client t) priority u.vtime)) u.runqueue t
  have hmem : ∀ x ∈ u.runqueue, x ∈ rbtree_insert
      (update u.client t (entered (u.client t) priority u.vtime)) u.runqueue t :=
    fun x hx => hperm.mem_iff.2 (mem_cons_of_mem _ hx)
  refine inv_after h (fun _ => hins.mono le_rfl ?_) (fun hq => ?_) ?_ (fun hd x hx => ?_) fun hn => ?_
  · have h1 := (abs_nonneg _).trans h.sched.lag
    have h2 := h.wmax_nonneg
    omega
  · dsimp only at hq
    rw [hq] at hperm
    cases hperm.symm.eq_nil
  · exact hu.clock ▸ UInt64.le_refl _
  · exact hmem x (hu.queue.mem_iff.2 (h.running hd x (hu.run ▸ hx)))
  · obtain ⟨hv, he⟩ := hu.idle (.inl (hu.run ▸ hn))
    refine ⟨hv, fun x hx => ?_⟩
    dsimp only at hx ⊢
    by_cases hxt : x = t
    · rw [hxt, update_self]
      exact hv
    · rw [update_of_ne hxt]
      exact he x ((mem_cons.1 (hperm.mem_iff.1 hx)).resolve_left hxt)

theorem inv_leave (ht : t ∈ s.sched.runqueue) (hle : s.now ≤ uptime)
    (hrun : s.inDo = false → s.sched.runThread ≠ some t) :
    Inv (s.after uptime (sched_leave s.sched t uptime).val) := by
  have hW := h.total
  by_cases hw : s.sched.totalWeight - (s.sched.client t).weight = 0
  · have hnil := h.sched.erase_eq_nil ht hw
    rw [leave_val_last uptime hw]
    refine inv_after h (fun hne => absurd hnil hne) (fun _ => ⟨rfl, rfl⟩) (UInt64.le_refl _) (fun hd x hx => ?_)
      fun _ => ⟨rfl, fun x hx => absurd hx (by simp [hnil])⟩
    exact (mem_erase_of_ne (by rintro rfl; exact hrun hd hx)).2 (h.running hd x hx)
  · have hinv := h.sched.leave uptime ht hw
    rw [leave_val uptime hw] at hinv ⊢
    refine inv_after h (fun _ => hinv.mono (by omega) (by omega)) (fun hq => absurd ?_ hw)
      (UInt64.le_trans h.clock hle) (fun hd x hx => ?_) fun hn => ?_
    · dsimp only at hq
      rw [h.sched.total_erase ht, hq, queueSum_nil]
    · exact (mem_erase_of_ne (by rintro rfl; exact hrun hd hx)).2 (h.running hd x hx)
    · obtain ⟨hv, he⟩ := h.idle (.inl hn)
      refine ⟨?_, fun x hx => he x (mem_of_mem_erase hx)⟩
      simp [lagAt, hv, he t ht]

theorem inv_start (hq : s.sched.runqueue = []) (hp : priority ≤ PRIORITY_MAX) :
    Inv (s.after s.now (sched_start s.sched t priority).val) := by
  have hins := h.sched.insert (t := t) (by rw [hq]; exact not_mem_nil) hp
  simp only [sched_start, Traced.val_bind, Traced.val_pure]
  rw [insert_val] at hins ⊢
  have hperm := rbtree_insert_perm
    (update s.sched.client t (entered (s.sched.client t) priority s.sched.vtime)) s.sched.runqueue t
  have h1 := (abs_nonneg _).trans h.sched.lag
  have h2 := h.wmax_nonneg
  refine inv_after h (fun _ => { hins.mono (by omega) (by omega) with }) (fun hn => ?_) h.clock (fun _ x hx => ?_)
    fun hn => by cases hn
  · dsimp only at hn
    rw [hn] at hperm
    cases hperm.symm.eq_nil
  · obtain rfl := Option.some.inj hx
    exact hperm.mem_iff.2 mem_cons_self

theorem inv_switch {next : Option Nat} (hnext : ∀ t ∈ next, t ∈ s.sched.runqueue)
    (hnone : next = none → s.sched.runqueue = []) :
    Inv { s with sched := { s.sched with runThread := next }, inDo := false } where
  sched := { h.sched with }
  total := h.total
  clock := h.clock
  running _ t ht := hnext t ht
  idle hi := h.idle (.inr (hi.elim hnone id))

theorem inv_step (hs : step s a = some s') : Inv s' := by
  obtain ⟨r, hr, rfl⟩ := map_eq_some_iff.1 hs
  cases a with
  | start t priority =>
    obtain ⟨⟨-, hq, -, hp⟩, ⟨⟩⟩ := ite_none_right_eq_some.1 hr
    exact inv_start h hq hp
  | submit t priority uptime =>
    obtain ⟨⟨hd, ht, hp, hle⟩, ⟨⟩⟩ := ite_none_right_eq_some.1 hr
    exact inv_enter h ht hp hle fun t hr => .inl (h.running hd t hr)
  | steal t uptime =>
    obtain ⟨⟨-, ht, hne, hle⟩, ⟨⟩⟩ := ite_none_right_eq_some.1 hr
    exact inv_leave h ht hle fun _ => hne
  | enterDo uptime =>
    obtain ⟨⟨hd, -, hle⟩, ⟨⟩⟩ := ite_none_right_eq_some.1 hr
    exact inv_enterDo h hd hle
  | leave =>
    simp only [exec] at hr
    split at hr
    · obtain ⟨⟨hd, ht⟩, ⟨⟩⟩ := ite_none_right_eq_some.1 hr
      exact inv_leave h ht (UInt64.le_refl _) fun hf => by rw [hd] at hf; cases hf
    · cases hr
  | pull t priority uptime =>
    obtain ⟨⟨-, hq, hp, hle⟩, ⟨⟩⟩ := ite_none_right_eq_some.1 hr
    exact inv_enter h (by rw [hq]; exact not_mem_nil) hp hle fun _ _ => .inr hq
  | switchTo next =>
    obtain ⟨⟨-, hnext, hnone⟩, ⟨⟩⟩ := ite_none_right_eq_some.1 hr
    exact inv_switch h hnext hnone

end

theorem inv_always (as : List Action) : Always step Inv init as :=
  always_of_step (fun _ _ _ => inv_step) inv_init as

/-- Along every run of a scheduler the lags of the queued threads sum to zero
within the number of operations since the runqueue was last empty, times the
largest total weight since then; and `totalWeight` is the sum of their weights. -/
theorem lag_conserved (as : List Action) :
    Always step (fun s => |s.sched.lagSum| ≤ s.ops * s.wmax ∧
      s.sched.totalWeight = queueSum s.sched.client s.sched.runqueue (·.weight)) init as :=
  (inv_always as).mono fun _ h => ⟨h.sched.lag, h.sched.total⟩

end Patchwork.Sched
