import Mathlib
/-!
# Systems of agents

A system is a function from agents to what each is doing, and a step of one agent an
`update` of it. Of finitely many agents, `weigh` adds up the weights of what each is doing,
and `tally` counts those with a property. A step changes either by that agent's part alone.
Agents that work through a list of tasks weigh what their tasks weigh together.
-/

namespace Patchwork.Lib

open Finset Function

section
variable {ι β γ : Type} [DecidableEq ι] {f : ι → β} {i j : ι} {a b c : β} {x : γ}

theorem update_map_cases (g : β → γ) (h : g (update f i a j) = x) : j = i ∧ g a = x ∨ j ≠ i ∧ g (f j) = x := by
  by_cases hj : j = i
  · rw [hj, update_self] at h
    exact .inl ⟨hj, h⟩
  · rw [update_of_ne hj] at h
    exact .inr ⟨hj, h⟩

theorem of_update_map (g : β → γ) (h : g (update f i a j) = x) (hne : g a ≠ x) : j ≠ i ∧ g (f j) = x :=
  (update_map_cases g h).resolve_left fun h => hne h.2

theorem update_map_eq (g : β → γ) (h : g a = g (f i)) (j : ι) : g (update f i a j) = g (f j) := by
  rw [apply_update fun _ => g, h, update_eq_self i fun k => g (f k)]

theorem update_cases (h : update f i a j = b) : j = i ∧ a = b ∨ j ≠ i ∧ f j = b :=
  update_map_cases id h

theorem of_update (h : update f i a j = b) (hne : a ≠ b) : j ≠ i ∧ f j = b :=
  (update_cases h).resolve_left fun h => hne h.2

theorem of_update_or (h : update f i a j = b ∨ update f i a j = c) (hb : a ≠ b) (hc : a ≠ c) :
    j ≠ i ∧ (f j = b ∨ f j = c) := by
  rcases h with h | h
  · exact (of_update h hb).imp id .inl
  · exact (of_update h hc).imp id .inr

/-- What each agent has is its own. -/
theorem one_update (r : β → γ → Prop) (hone : ∀ j k x, r (f j) x → r (f k) x → j = k)
    (hnew : ∀ j x, r a x → r (f j) x → j = i) (j k : ι) (x : γ) (hj : r (update f i a j) x)
    (hk : r (update f i a k) x) : j = k := by
  by_cases hji : j = i
  · rw [hji, update_self] at hj
    by_cases hki : k = i
    · rw [hji, hki]
    · rw [update_of_ne hki] at hk
      exact hji.trans (hnew k x hj hk).symm
  · rw [update_of_ne hji] at hj
    by_cases hki : k = i
    · rw [hki, update_self] at hk
      exact (hnew j x hk hj).trans hki.symm
    · rw [update_of_ne hki] at hk
      exact hone j k x hj hk

end

/-! ## Weights -/

theorem sum_update {ι β : Type} [DecidableEq ι] {s : Finset ι} {i : ι} (hi : i ∈ s) (w : β → Nat) (f : ι → β) (b : β) :
    ∑ j ∈ s, w (update f i b j) + w (f i) = ∑ j ∈ s, w (f j) + w b := by
  have hrest : ∑ j ∈ s.erase i, w (update f i b j) = ∑ j ∈ s.erase i, w (f j) := by
    apply sum_congr rfl
    intro j hj
    rw [update_of_ne (ne_of_mem_erase hj)]
  rw [← add_sum_erase s _ hi, ← add_sum_erase s (fun j => w (f j)) hi, hrest, update_self]
  omega

theorem card_filter_eq {ι : Type} (s : Finset ι) (p : ι → Bool) :
    (s.filter fun i => p i = true).card = ∑ i ∈ s, (p i).toNat := by
  rw [card_filter]
  apply sum_congr rfl
  intro i _
  cases p i <;> rfl

variable {C β : Type} [Fintype C] {w : β → Nat}

def weigh (w : β → Nat) (f : C → β) : Nat := ∑ c, w (f c)

theorem le_weigh (w : β → Nat) (f : C → β) (c : C) : w (f c) ≤ weigh w f :=
  single_le_sum (f := fun c => w (f c)) (fun _ _ => Nat.zero_le _) (mem_univ c)

theorem weigh_le_card (h : ∀ b, w b ≤ 1) (f : C → β) : weigh w f ≤ Fintype.card C := by
  simpa [weigh] using sum_le_card_nsmul univ (fun c => w (f c)) 1 fun c _ => h (f c)

theorem weigh_eq_zero {f : C → β} (h : ∀ c, w (f c) = 0) : weigh w f = 0 :=
  sum_eq_zero fun c _ => h c

theorem weigh_update [DecidableEq C] (w : β → Nat) (f : C → β) (c : C) (b : β) :
    weigh w (update f c b) + w (f c) = weigh w f + w b := sum_update (mem_univ c) w f b

/-- The tasks of a list weigh what they weigh together. -/
def load (w : β → Nat) (tasks : List β) : Nat := (tasks.map w).sum

@[simp]
theorem load_nil (w : β → Nat) : load w [] = 0 := rfl

@[simp]
theorem load_cons (w : β → Nat) (task : β) (tasks : List β) : load w (task :: tasks) = w task + load w tasks := rfl

@[simp]
theorem load_append (w : β → Nat) (xs ys : List β) : load w (xs ++ ys) = load w xs + load w ys := by
  simp [load]

theorem le_load {task : β} {tasks : List β} (h : task ∈ tasks) : w task ≤ load w tasks := by
  induction tasks with
  | nil => cases h
  | cons first tasks ih =>
    rcases List.mem_cons.1 h with rfl | h
    · exact Nat.le_add_right ..
    · exact Nat.le_trans (ih h) (Nat.le_add_left ..)

theorem load_eq_zero {tasks : List β} (h : ∀ task ∈ tasks, w task = 0) : load w tasks = 0 := by
  induction tasks with
  | nil => rfl
  | cons first tasks ih =>
    rw [load_cons, h first List.mem_cons_self, ih fun task ht => h task (List.mem_cons_of_mem first ht)]

theorem le_weigh_load {f : C → List β} {c : C} {task : β} (h : task ∈ f c) :
    w task ≤ weigh (load w) f := Nat.le_trans (le_load h) (le_weigh (load w) f c)

theorem weigh_load_mono {w w' : β → Nat} (h : ∀ task, w task ≤ w' task) (f : C → List β) :
    weigh (load w) f ≤ weigh (load w') f :=
  sum_le_sum fun _ _ => List.sum_le_sum fun task _ => h task

/-! ## Counts -/

variable {p : β → Bool} {f : C → β}

/-- The number of agents with the property. -/
def tally (p : β → Bool) (f : C → β) : Nat := (univ.filter fun c => p (f c) = true).card

theorem tally_pos {c : C} (hc : p (f c) = true) : 0 < tally p f :=
  card_pos.2 ⟨c, by simp [hc]⟩

theorem tally_eq_zero (h : tally p f = 0) (c : C) : p (f c) = false := by
  by_contra hc
  have := tally_pos (Bool.not_eq_false _ ▸ hc)
  omega

theorem tally_congr {g : C → β} (h : ∀ c, p (g c) = p (f c)) : tally p g = tally p f := by
  simp [tally, h]

/-- Different agents with the property are no more than all of them. -/
theorem length_le_tally {l : List C} (hn : l.Nodup) (hl : ∀ c ∈ l, p (f c) = true) : l.length ≤ tally p f := by
  classical
  rw [← List.toFinset_card_of_nodup hn]
  apply card_le_card
  intro c hc
  simpa using hl c (List.mem_toFinset.1 hc)

variable [DecidableEq C]

theorem tally_update (p : β → Bool) (f : C → β) (c : C) (b : β) :
    tally p (update f c b) + (p (f c)).toNat = tally p f + (p b).toNat := by
  rw [tally, tally, card_filter_eq _ fun d => p (update f c b d), card_filter_eq _ fun d => p (f d)]
  exact sum_update (mem_univ c) (fun b => (p b).toNat) f b

variable (p : β → Bool) {c : C} {a : β} (b : β)

theorem tally_enter (hc : f c = a) (ha : p a = false) (hb : p b = true) : tally p (update f c b) = tally p f + 1 := by
  have := tally_update p f c b
  rw [hc, ha, hb] at this
  exact this

theorem tally_leave (hc : f c = a) (ha : p a = true) (hb : p b = false) : tally p (update f c b) + 1 = tally p f := by
  have := tally_update p f c b
  rw [hc, ha, hb] at this
  exact this

theorem tally_stay (hc : f c = a) (hb : p b = p a) : tally p (update f c b) = tally p f := by
  have := tally_update p f c b
  rw [hc, hb] at this
  exact Nat.add_right_cancel this

end Patchwork.Lib
