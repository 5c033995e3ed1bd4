import Mathlib.Data.List.Basic
/-!
# Fallible steps

Rules for computations in `Except`: what a sequence that succeeds has gone through, and
what a loop over a list keeps when all its steps succeed.
-/

namespace Patchwork.Lib

variable {ε α β σ : Type}

theorem bind_eq_ok {x : Except ε α} {f : α → Except ε β} {b : β} :
    (x >>= f) = .ok b ↔ ∃ a, x = .ok a ∧ f a = .ok b := by
  cases x with
  | error e => simp [bind, Except.bind]
  | ok a => simp [bind, Except.bind]

theorem map_eq_ok {x : Except ε α} {f : α → β} {b : β} : x.map f = .ok b ↔ ∃ a, x = .ok a ∧ f a = b := by
  cases x with
  | error e => simp [Except.map]
  | ok a => simp [Except.map]

theorem toOption_eq_some {x : Except ε α} {a : α} : x.toOption = some a ↔ x = .ok a := by
  cases x with
  | error e => simp [Except.toOption]
  | ok b => simp [Except.toOption]

/-- What each step keeps, the loop keeps. -/
theorem foldlM_ok {I : σ → Prop} {f : σ → α → Except ε σ} (hf : ∀ s a s', I s → f s a = .ok s' → I s') {l : List α}
    {s s' : σ} (h0 : I s) (h : l.foldlM f s = .ok s') : I s' := by
  induction l generalizing s with
  | nil =>
    obtain rfl := Except.ok.inj h
    exact h0
  | cons a l ih =>
    obtain ⟨t, ht, h⟩ := bind_eq_ok.1 h
    exact ih (hf s a t h0 ht) h

end Patchwork.Lib
