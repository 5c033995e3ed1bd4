import Mathlib
/-!
# Exact arithmetic with a record of its machine values

Code on signed 128-bit integers is modelled on `Int`: a computation returns its
exact result together with the values it passes through, and with the divisors
it uses. The result of the code is the exact one if every recorded value fits
its machine type; `Traced.Ok` says so. One definition then serves both the
facts about the exact results and the proof that nothing overflows.
-/

namespace Patchwork.Lib

/-- What has to hold of a value for the machine to compute it exactly. -/
inductive Check where
  | int128 (x : Int)
  | divisor (x : Int)
deriving Repr, DecidableEq

def Check.Ok : Check → Prop
  | .int128 x => -2 ^ 127 ≤ x ∧ x < 2 ^ 127
  | .divisor x => x ≠ 0

theorem Check.ok_int128 {x : Int} : (Check.int128 x).Ok ↔ -2 ^ 127 ≤ x ∧ x < 2 ^ 127 := Iff.rfl

instance (c : Check) : Decidable c.Ok := by
  cases c <;> unfold Check.Ok <;> infer_instance

structure Traced (α : Type) where
  val : α
  checks : List Check

namespace Traced

variable {α β : Type}

instance : Monad Traced where
  pure a := ⟨a, []⟩
  bind x f := ⟨(f x.val).val, x.checks ++ (f x.val).checks⟩

@[simp] theorem val_pure (a : α) : (pure a : Traced α).val = a := rfl
@[simp] theorem val_bind (x : Traced α) (f : α → Traced β) : (x >>= f).val = (f x.val).val := rfl

/-- Every recorded value fits. -/
def Ok (x : Traced α) : Prop := ∀ c ∈ x.checks, c.Ok

@[simp] theorem ok_pure (a : α) : (pure a : Traced α).Ok := fun _ h => absurd h List.not_mem_nil

@[simp] theorem ok_bind (x : Traced α) (f : α → Traced β) : (x >>= f).Ok ↔ x.Ok ∧ (f x.val).Ok :=
  List.forall_mem_append

def add (a b : Int) : Traced Int := ⟨a + b, [.int128 (a + b)]⟩
def sub (a b : Int) : Traced Int := ⟨a - b, [.int128 (a - b)]⟩
def mul (a b : Int) : Traced Int := ⟨a * b, [.int128 (a * b)]⟩

/-- The truncating division of C. -/
def div (a b : Int) : Traced Int := ⟨a.tdiv b, [.divisor b, .int128 (a.tdiv b)]⟩

/-- `a << n`. -/
def shl (a : Int) (n : Nat) : Traced Int := ⟨a * 2 ^ n, [.int128 (a * 2 ^ n)]⟩

@[simp] theorem val_add (a b : Int) : (add a b).val = a + b := rfl
@[simp] theorem val_sub (a b : Int) : (sub a b).val = a - b := rfl
@[simp] theorem val_mul (a b : Int) : (mul a b).val = a * b := rfl
@[simp] theorem val_div (a b : Int) : (div a b).val = a.tdiv b := rfl
@[simp] theorem val_shl (a : Int) (n : Nat) : (shl a n).val = a * 2 ^ n := rfl

@[simp] theorem ok_add (a b : Int) : (add a b).Ok ↔ (Check.int128 (a + b)).Ok := List.forall_mem_singleton
@[simp] theorem ok_sub (a b : Int) : (sub a b).Ok ↔ (Check.int128 (a - b)).Ok := List.forall_mem_singleton
@[simp] theorem ok_mul (a b : Int) : (mul a b).Ok ↔ (Check.int128 (a * b)).Ok := List.forall_mem_singleton
@[simp] theorem ok_shl (a : Int) (n : Nat) : (shl a n).Ok ↔ (Check.int128 (a * 2 ^ n)).Ok :=
  List.forall_mem_singleton

@[simp] theorem ok_div (a b : Int) : (div a b).Ok ↔ b ≠ 0 ∧ (Check.int128 (a.tdiv b)).Ok := by
  simp [Ok, div, Check.Ok]

end Traced

end Patchwork.Lib
