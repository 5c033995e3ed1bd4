import Mathlib
/-!
# Runs of a step function

A system is a step function `step : σ → α → Option σ`: the state after an
action, or `none` where the action is not enabled. A run is a list of actions.
`Always` says that a property holds in every state a run passes through, and
`Along` that every action of a run meets a condition in the state it is taken
in. The rules below turn one-step facts into facts about whole runs, so a
safety theorem needs only its initial state and its step.
-/

namespace Patchwork.Lib

open Option

variable {σ α : Type} (step : σ → α → Option σ)

/-- The state after the actions of a run, if each is enabled in its turn. -/
def run : σ → List α → Option σ
  | s, [] => some s
  | s, a :: as => (step s a).bind fun s' => run s' as

/-- `P` holds in every state the run passes through, the last included. -/
def Always (P : σ → Prop) : σ → List α → Prop
  | s, [] => P s
  | s, a :: as => P s ∧ ∀ s', step s a = some s' → Always P s' as

/-- Every action of the run meets `ok` in the state it is taken in. -/
def Along (ok : σ → α → Prop) : σ → List α → Prop
  | _, [] => True
  | s, a :: as => ok s a ∧ ∀ s', step s a = some s' → Along ok s' as

variable {step}

/-- Decided by taking the run's steps one after the other. -/
instance Along.decidable {ok : σ → α → Prop} [∀ s a, Decidable (ok s a)] :
    ∀ s as, Decidable (Along step ok s as)
  | _, [] => .isTrue trivial
  | s, a :: as =>
    match h : step s a with
    | none => decidable_of_iff (ok s a) ⟨fun h' => ⟨h', fun s' hs => by simp [h] at hs⟩, And.left⟩
    | some t =>
      have : Decidable (Along step ok t as) := Along.decidable t as
      decidable_of_iff (ok s a ∧ Along step ok t as) ⟨fun h' => ⟨h'.1, fun s' hs => by
        rw [h] at hs; exact some.inj hs ▸ h'.2⟩, fun h' => ⟨h'.1, h'.2 t h⟩⟩

variable {P I : σ → Prop} {s s' : σ} {as : List α} {ok : σ → α → Prop}

theorem Always.head (h : Always step P s as) : P s := by
  cases as with
  | nil => exact h
  | cons a as => exact h.1

theorem Always.mono {Q : σ → Prop} (hpq : ∀ s, P s → Q s) (h : Always step P s as) : Always step Q s as := by
  induction as generalizing s with
  | nil => exact hpq s h
  | cons a as ih => exact ⟨hpq s h.1, fun s' hs => ih (h.2 s' hs)⟩

theorem Always.and {Q : σ → Prop} (hp : Always step P s as) (hq : Always step Q s as) :
    Always step (fun s => P s ∧ Q s) s as := by
  induction as generalizing s with
  | nil => exact ⟨hp, hq⟩
  | cons a as ih => exact ⟨⟨hp.1, hq.1⟩, fun s' hs => ih (hp.2 s' hs) (hq.2 s' hs)⟩

theorem Always.last (h : Always step P s as) (hr : run step s as = some s') : P s' := by
  induction as generalizing s with
  | nil => obtain rfl := some.inj hr; exact h
  | cons a as ih =>
    obtain ⟨t, ht, hr⟩ := bind_eq_some_iff.1 hr
    exact ih (h.2 t ht) hr

theorem run_to (step : σ → α → Option σ) (s : σ) (as : List α) (q : σ → Prop) [DecidablePred q]
    (h : (run step s as).any (fun s => decide (q s)) = true) : ∃ s', run step s as = some s' ∧ q s' := by
  obtain ⟨s', hs, hq⟩ := (any_eq_true ..).1 h
  exact ⟨s', hs, of_decide_eq_true hq⟩

theorem not_always (q : σ → Prop) [DecidablePred q] (h : (run step s as).any (fun s => decide (q s)) = true)
    (hq : ∀ s', q s' → ¬ P s') : ¬ Always step P s as := by
  obtain ⟨s', hs, hq'⟩ := run_to step s as q h
  exact fun h => hq s' hq' (h.last hs)

/-- An invariant that every action meeting `ok` keeps holds all along a run
whose actions meet `ok`. -/
theorem Along.always (hstep : ∀ s a s', I s → ok s a → step s a = some s' → I s')
    (h0 : I s) (h : Along step ok s as) : Always step I s as := by
  induction as generalizing s with
  | nil => exact h0
  | cons a as ih => exact ⟨h0, fun s' hs => ih (hstep s a s' h0 h.1 hs) (h.2 s' hs)⟩

/-- A property that every action meeting `ok` keeps between states with `I`. -/
theorem Along.always_with (hstep : ∀ s a s', I s → I s' → P s → ok s a → step s a = some s' → P s')
    (h0 : P s) (hI : Always step I s as) (h : Along step ok s as) : Always step P s as := by
  induction as generalizing s with
  | nil => exact h0
  | cons a as ih =>
    refine ⟨h0, fun s' hs => ih ?_ (hI.2 s' hs) (h.2 s' hs)⟩
    exact hstep s a s' hI.1 (hI.2 s' hs).head h0 h.1 hs

/-- An invariant that every action keeps holds all along every run. -/
theorem always_of_step (hstep : ∀ s a s', I s → step s a = some s' → I s') (h0 : I s)
    (as : List α) : Always step I s as := by
  induction as generalizing s with
  | nil => exact h0
  | cons a as ih => exact ⟨h0, fun s' hs => ih (hstep s a s' h0 hs)⟩

/-- An invariant that every action keeps in the states with `P` holds together with
`P` along every run on which `P` always holds. -/
theorem Always.strengthen (hstep : ∀ s a s', I s → P s → step s a = some s' → I s')
    (h0 : I s) (h : Always step P s as) : Always step (fun s => I s ∧ P s) s as := by
  induction as generalizing s with
  | nil => exact ⟨h0, h⟩
  | cons a as ih => exact ⟨⟨h0, h.1⟩, fun s' hs => ih (hstep s a s' h0 h.1 hs) (h.2 s' hs)⟩

/-- An invariant turns one condition on the actions of a run into another. -/
theorem Along.along {ok' : σ → α → Prop}
    (hstep : ∀ s a s', I s → ok s a → step s a = some s' → I s') (himp : ∀ s a, I s → ok s a → ok' s a)
    (h0 : I s) (h : Along step ok s as) : Along step ok' s as := by
  induction as generalizing s with
  | nil => trivial
  | cons a as ih => exact ⟨himp s a h0 h.1, fun s' hs => ih (hstep s a s' h0 h.1 hs) (h.2 s' hs)⟩

theorem run_append {bs : List α} (h : run step s as = some s') : run step s (as ++ bs) = run step s' bs := by
  induction as generalizing s with
  | nil => obtain rfl := some.inj h; rfl
  | cons a as ih =>
    obtain ⟨t, ht, hr⟩ := bind_eq_some_iff.1 h
    simp only [List.cons_append, run, ht, bind_some]
    exact ih hr

theorem along_append {bs : List α} (h : run step s as = some s') :
    Along step ok s (as ++ bs) ↔ Along step ok s as ∧ Along step ok s' bs := by
  induction as generalizing s with
  | nil => obtain rfl := some.inj h; simp [Along]
  | cons a as ih =>
    obtain ⟨t, ht, hr⟩ := bind_eq_some_iff.1 h
    simp only [List.cons_append, Along, ht, some.injEq, forall_eq', ih hr, and_assoc]

/-- If an action that breaks `ok` is enabled and leaves a state without `P`,
then a run along which `P` always holds meets `ok` all along. -/
theorem Always.along (hstep : ∀ s a s', I s → ok s a → step s a = some s' → I s')
    (hbad : ∀ s a, I s → P s → ¬ ok s a → ∃ s', step s a = some s' ∧ ¬ P s')
    (h0 : I s) (h : Always step P s as) : Along step ok s as := by
  induction as generalizing s with
  | nil => trivial
  | cons a as ih =>
    have hok : ok s a := by
      by_contra hok
      obtain ⟨s', hs, hp⟩ := hbad s a h0 h.1 hok
      exact hp (h.2 s' hs).head
    exact ⟨hok, fun s' hs => ih (hstep s a s' h0 hok hs) (h.2 s' hs)⟩

theorem Always.along_self (hbad : ∀ s a, P s → ¬ ok s a → ∃ s', step s a = some s' ∧ ¬ P s')
    (h : Always step P s as) : Along step ok s as :=
  h.along (I := fun _ => True) (fun _ _ _ _ _ _ => trivial) (fun s a _ => hbad s a) trivial

/-- What each action raises by at most one. -/
theorem run_le_length {f : σ → Nat} (hstep : ∀ s a s', step s a = some s' → f s' ≤ f s + 1)
    (h : run step s as = some s') : f s' ≤ f s + as.length := by
  induction as generalizing s with
  | nil => exact (some.inj h) ▸ Nat.le_refl _
  | cons a as ih =>
    obtain ⟨t, ht, hr⟩ := bind_eq_some_iff.1 h
    have hfirst := hstep s a t ht
    have hrest := ih hr
    rw [List.length_cons]
    omega

/-! ## Numbered agents

With these the numerals of a concrete run are the same terms in every module. -/

instance neZero_one : NeZero 1 := ⟨by decide⟩
instance neZero_two : NeZero 2 := ⟨by decide⟩
instance neZero_three : NeZero 3 := ⟨by decide⟩
instance neZero_four : NeZero 4 := ⟨by decide⟩

end Patchwork.Lib
