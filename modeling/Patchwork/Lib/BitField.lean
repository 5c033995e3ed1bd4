import Mathlib.Data.Nat.Bitwise
/-!
# Bit fields

A field of a word is the number that `len` of its bits from bit `lo` on make up.
Writing a field leaves every field apart from it as it was.
-/

namespace Patchwork.Lib

open BitVec

variable {n : Nat}

/-- The field of `len` bits from bit `lo` on. -/
def field (w : BitVec n) (lo len : Nat) : Nat := (w.extractLsb' lo len).toNat

/-- The word with that field replaced by the low bits of `v`. -/
def setField (w : BitVec n) (lo len v : Nat) : BitVec n :=
  (w &&& ~~~(BitVec.ofNat n (2 ^ len - 1) <<< lo)) ||| (BitVec.ofNat n (v % 2 ^ len) <<< lo)

theorem getLsbD_setField (w : BitVec n) (lo len v : Nat) {i : Nat} (hi : i < n) :
    (setField w lo len v).getLsbD i = if lo ≤ i ∧ i < lo + len then v.testBit (i - lo) else w.getLsbD i := by
  simp only [setField, getLsbD_or, getLsbD_and, getLsbD_not, getLsbD_shiftLeft,
    getLsbD_ofNat, Nat.testBit_two_pow_sub_one, Nat.testBit_mod_two_pow, decide_eq_true hi, Bool.true_and]
  have hin : i - lo < n := by omega
  rw [decide_eq_true hin]
  by_cases hlo : i < lo
  · simp [hlo, show ¬lo ≤ i by omega]
  · by_cases hlen : i - lo < len
    · simp [hlo, hlen, show lo ≤ i by omega, show i < lo + len by omega]
    · simp [hlo, hlen, show ¬i < lo + len by omega]

theorem testBit_field (w : BitVec n) (lo len i : Nat) :
    (field w lo len).testBit i = (decide (i < len) && w.getLsbD (lo + i)) := by
  rw [field, testBit_toNat, getLsbD_extractLsb']

theorem getLsbD_eq_field (w : BitVec n) (i : Nat) : w.getLsbD i = decide (field w i 1 = 1) := by
  have hlt : field w i 1 < 2 := (w.extractLsb' i 1).isLt
  have h := testBit_field w i 1 0
  rw [Nat.testBit_zero, Nat.mod_eq_of_lt hlt] at h
  exact h.symm

theorem field_congr {w w' : BitVec n} {lo len : Nat}
    (h : ∀ i, lo ≤ i → i < lo + len → w.getLsbD i = w'.getLsbD i) : field w lo len = field w' lo len := by
  refine Nat.eq_of_testBit_eq fun i => ?_
  rw [testBit_field, testBit_field]
  by_cases hi : i < len
  · rw [h (lo + i) (by omega) (by omega)]
  · simp [hi]

theorem field_setField_self {w : BitVec n} {lo len : Nat} (h : lo + len ≤ n) (v : Nat) :
    field (setField w lo len v) lo len = v % 2 ^ len := by
  refine Nat.eq_of_testBit_eq fun i => ?_
  rw [testBit_field, Nat.testBit_mod_two_pow]
  by_cases hi : i < len
  · rw [getLsbD_setField w lo len v (by omega), if_pos (by omega), Nat.add_sub_cancel_left]
  · simp [hi]

theorem field_setField_of_apart {w : BitVec n} {lo len lo' len' : Nat} (h : lo' + len' ≤ n)
    (hd : lo' + len' ≤ lo ∨ lo + len ≤ lo') (v : Nat) : field (setField w lo len v) lo' len' = field w lo' len' :=
  field_congr fun i h1 h2 => by rw [getLsbD_setField w lo len v (by omega), if_neg (by omega)]

end Patchwork.Lib
