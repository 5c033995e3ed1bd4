import Patchwork.Sched.Eevdf
/-!
# Sums over the runqueue

The quantities of the scheduler are sums over the threads of its runqueue: the
total weight, the lag, its positive and its negative part. `queueSum` takes
them at given contexts and a given queue, so that each operation of the
scheduler has one lemma here: a context is updated, the queue is reordered, a
thread is inserted or removed, the virtual time is shifted.
-/

namespace Patchwork.Sched

open List Function Lib

def queueSum (client : Nat → sched_client_t) (queue : List Nat) (f : sched_client_t → Int) : Int :=
  (queue.map fun t => f (client t)).sum

variable {client : Nat → sched_client_t} {queue : List Nat} {f g : sched_client_t → Int} {t : Nat}

@[simp] theorem queueSum_nil : queueSum client [] f = 0 := rfl

@[simp] theorem queueSum_cons : queueSum client (t :: queue) f = f (client t) + queueSum client queue f := by
  simp [queueSum]

theorem queueSum_perm {queue' : List Nat} (h : queue'.Perm queue) :
    queueSum client queue' f = queueSum client queue f :=
  (h.map _).sum_eq

theorem queueSum_erase (ht : t ∈ queue) :
    queueSum client (queue.erase t) f = queueSum client queue f - f (client t) := by
  rw [queueSum_perm (perm_cons_erase ht), queueSum_cons]
  ring

theorem queueSum_update_notMem {c : sched_client_t} (ht : t ∉ queue) :
    queueSum (update client t c) queue f = queueSum client queue f := by
  unfold queueSum
  congr 1
  refine map_congr_left fun u hu => ?_
  rw [update_of_ne]
  rintro rfl
  exact ht hu

theorem queueSum_update_mem {c : sched_client_t} (hn : queue.Nodup) (ht : t ∈ queue) :
    queueSum (update client t c) queue f = queueSum client queue f - f (client t) + f c := by
  have hp := perm_cons_erase ht
  rw [queueSum_perm hp, queueSum_perm hp, queueSum_cons, queueSum_cons,
    queueSum_update_notMem (hn.not_mem_erase), update_self]
  ring

theorem queueSum_add :
    queueSum client queue (fun c => f c + g c) = queueSum client queue f + queueSum client queue g :=
  sum_map_add

theorem queueSum_mul (a : Int) : queueSum client queue (fun c => a * f c) = a * queueSum client queue f := by
  induction queue with
  | nil => simp
  | cons t queue ih => rw [queueSum_cons, queueSum_cons, ih, mul_add]

theorem queueSum_le (h : ∀ t ∈ queue, f (client t) ≤ g (client t)) :
    queueSum client queue f ≤ queueSum client queue g :=
  sum_le_sum h

theorem queueSum_congr (h : ∀ t ∈ queue, f (client t) = g (client t)) :
    queueSum client queue f = queueSum client queue g := by
  unfold queueSum
  rw [map_congr_left h]

theorem queueSum_nonneg (h : ∀ t ∈ queue, 0 ≤ f (client t)) : 0 ≤ queueSum client queue f := by
  refine sum_nonneg fun x hx => ?_
  obtain ⟨t, ht, rfl⟩ := mem_map.1 hx
  exact h t ht

theorem le_queueSum (h : ∀ t ∈ queue, 0 ≤ f (client t)) (ht : t ∈ queue) :
    f (client t) ≤ queueSum client queue f := by
  have hsum : queueSum client (queue.erase t) f = queueSum client queue f - f (client t) := queueSum_erase ht
  have hrest : 0 ≤ queueSum client (queue.erase t) f :=
    queueSum_nonneg fun u hu => h u (mem_of_mem_erase hu)
  linarith

/-! ## Reordering -/

theorem rbtree_insert_perm (client : Nat → sched_client_t) (queue : List Nat) (t : Nat) :
    (rbtree_insert client queue t).Perm (t :: queue) :=
  perm_orderedInsert _ t queue

theorem rbtree_fix_perm (client : Nat → sched_client_t) (queue : List Nat) (t : Nat) :
    (rbtree_fix client queue t).Perm queue := by
  unfold rbtree_fix
  split
  · rename_i ht
    exact (rbtree_insert_perm client _ t).trans (perm_cons_erase ht).symm
  · exact .refl _

/-! ## Lag -/

/-- The lag of a thread at virtual time `v`. -/
def lagAt (v : Int) (c : sched_client_t) : Int := (v - c.veligible) * c.weight

def posLagAt (v : Int) (c : sched_client_t) : Int := max (lagAt v c) 0

def negLagAt (v : Int) (c : sched_client_t) : Int := max (-lagAt v c) 0

theorem lagAt_add (v d : Int) (c : sched_client_t) : lagAt (v + d) c = lagAt v c + d * c.weight := by
  unfold lagAt
  ring

theorem queueSum_lagAt_add (v d : Int) :
    queueSum client queue (lagAt (v + d)) = queueSum client queue (lagAt v) + d * queueSum client queue (·.weight) := by
  rw [← queueSum_mul, ← queueSum_add]
  exact queueSum_congr fun t _ => lagAt_add v d _

section
variable (hw : ∀ t ∈ queue, 0 ≤ (client t).weight)
include hw

/-- A bound on what is added to each term bounds what is added to the sum. -/
theorem queueSum_le_add_max {e : Int}
    (h : ∀ t ∈ queue, f (client t) ≤ g (client t) + max (e * (client t).weight) 0) :
    queueSum client queue f ≤ queueSum client queue g + max (e * queueSum client queue (·.weight)) 0 := by
  rcases le_total 0 e with he | he
  · have hle : queueSum client queue f ≤ queueSum client queue (fun c => g c + e * c.weight) := by
      refine queueSum_le fun t ht => ?_
      rw [← max_eq_left (mul_nonneg he (hw t ht))]
      exact h t ht
    rw [queueSum_add, queueSum_mul] at hle
    exact hle.trans (add_le_add le_rfl (le_max_left _ _))
  · have hle : queueSum client queue f ≤ queueSum client queue g := by
      refine queueSum_le fun t ht => ?_
      rw [← add_zero (g (client t)), ← max_eq_right (mul_nonpos_of_nonpos_of_nonneg he (hw t ht))]
      exact h t ht
    exact hle.trans (le_add_of_nonneg_right (le_max_right _ _))

/-- A shift of the virtual time adds to the positive lags at most the shift
times the total weight. -/
theorem queueSum_posLagAt_add (v d : Int) :
    queueSum client queue (posLagAt (v + d)) ≤
      queueSum client queue (posLagAt v) + max (d * queueSum client queue (·.weight)) 0 := by
  refine queueSum_le_add_max hw fun t _ => ?_
  simp only [posLagAt, lagAt_add]
  omega

theorem queueSum_negLagAt_add (v d : Int) :
    queueSum client queue (negLagAt (v + d)) ≤
      queueSum client queue (negLagAt v) + max (-(d * queueSum client queue (·.weight))) 0 := by
  rw [← neg_mul]
  refine queueSum_le_add_max hw fun t _ => ?_
  simp only [negLagAt, lagAt_add, neg_mul]
  omega

theorem queueSum_lagAt_le {lo : Int}
    (hlo : ∀ t ∈ queue, lo ≤ (client t).veligible) (v : Int) :
    queueSum client queue (lagAt v) ≤ (v - lo) * queueSum client queue (·.weight) := by
  rw [← queueSum_mul]
  refine queueSum_le fun t ht => ?_
  exact mul_le_mul_of_nonneg_right (by have := hlo t ht; omega) (hw t ht)

theorem le_queueSum_lagAt {hi : Int}
    (hhi : ∀ t ∈ queue, (client t).veligible ≤ hi) (v : Int) :
    (v - hi) * queueSum client queue (·.weight) ≤ queueSum client queue (lagAt v) := by
  rw [← queueSum_mul]
  refine queueSum_le fun t ht => ?_
  exact mul_le_mul_of_nonneg_right (by have := hhi t ht; omega) (hw t ht)

end

/-! ## Truncating division -/

theorem abs_sub_mul_tdiv_lt (a : Int) {b : Int} (hb : 0 < b) : |a - b * a.tdiv b| < b := by
  have h := Int.mul_tdiv_add_tmod a b
  rw [abs_lt]
  have h1 := Int.tmod_lt_of_pos a hb
  have h2 := Int.lt_tmod_of_pos a hb
  omega

/-- A truncated quotient times its divisor is between zero and the dividend. -/
theorem mul_tdiv_bounds (a : Int) {b : Int} (hb : 0 < b) :
    (0 ≤ a → 0 ≤ b * a.tdiv b ∧ b * a.tdiv b ≤ a) ∧ (a ≤ 0 → a ≤ b * a.tdiv b ∧ b * a.tdiv b ≤ 0) := by
  have h := Int.mul_tdiv_add_tmod a b
  constructor
  · intro ha
    have h1 := Int.tmod_nonneg b ha
    have h2 := mul_nonneg hb.le (Int.tdiv_nonneg ha hb.le)
    omega
  · intro ha
    have h1 := Int.tmod_nonneg b (neg_nonneg.2 ha)
    have h2 := mul_nonneg hb.le (Int.tdiv_nonneg (neg_nonneg.2 ha) hb.le)
    rw [Int.neg_tmod] at h1
    rw [Int.neg_tdiv, mul_neg] at h2
    omega

end Patchwork.Sched
