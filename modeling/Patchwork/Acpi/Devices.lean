import Mathlib
/-!
# The order of ACPI devices

`acpi_id_compare` of `acpi/devices.c`, by which the devices are sorted before they are initialised. A
string is the list of its bytes before the NUL.
-/

namespace Patchwork.Acpi

open List

structure acpi_id_t where
  hid : List Nat
  cid : List Nat

def acpi_id_t.name (id : acpi_id_t) : List Nat := if id.hid = [] then id.cid else id.hid

/-- The digits and the letters `A` to `F`. -/
def isHex (c : Nat) : Bool := (48 ≤ c ∧ c ≤ 57) ∨ (65 ≤ c ∧ c ≤ 70)

/-- For `sscanf` the letters `a` to `f` are digits as well. -/
def digit (c : Nat) : Option Nat :=
  if 48 ≤ c ∧ c ≤ 57 then some (c - 48)
  else if 65 ≤ c ∧ c ≤ 70 then some (c - 55)
  else if 97 ≤ c ∧ c ≤ 102 then some (c - 87)
  else none

def scan (num : Nat) : List Nat → Nat
  | [] => num
  | c :: s =>
    match digit c with
    | none => num
    | some d => scan (16 * num + d) s

/-- `sscanf(s, "%llx", &num)`, with `num` zero before, as it reads hexadecimal digits. The
blanks, the sign and the `0x` that the `sscanf` of the library also takes before them are
outside the model. -/
def sscanf (s : List Nat) : Nat := scan 0 s % 2 ^ 64

/-- `return numA - numB`, an `int`. -/
def compareNumbers (a b : List Nat) : Int := Int.bmod ((sscanf a : Int) - sscanf b) (2 ^ 32)

/-- The loop ends at the first hexadecimal digit of either string. -/
def compareNames : List Nat → List Nat → Int
  | a :: as, b :: bs =>
    if isHex a = false ∧ isHex b = false then
      if a ≠ b then (a : Int) - b else compareNames as bs
    else compareNumbers (a :: as) (b :: bs)
  | as, bs => compareNumbers as bs

def acpi_id_compare (left right : acpi_id_t) : Int := compareNames left.name right.name

/-! ## The order of the keys -/

def prefixOf (s : List Nat) : List Nat := s.takeWhile fun c => !isHex c

def numberOf (s : List Nat) : Nat := sscanf (s.dropWhile fun c => !isHex c)

/-- The prefix and then the number. -/
def key (s : List Nat) : List Nat ×ₗ Nat := toLex (prefixOf s, numberOf s)

theorem prefixOf_cons {c : Nat} (hc : isHex c = false) (s : List Nat) : prefixOf (c :: s) = c :: prefixOf s := by
  simp [prefixOf, hc]

theorem numberOf_cons {c : Nat} (hc : isHex c = false) (s : List Nat) : numberOf (c :: s) = numberOf s := by
  simp [numberOf, hc]

/-- `x` is negative or zero exactly if the order of the keys says so. -/
def SignOf (x : Int) (a b : List Nat) : Prop := (x < 0 ↔ key a < key b) ∧ (x = 0 ↔ key a = key b)

instance (x : Int) (a b : List Nat) : Decidable (SignOf x a b) := inferInstanceAs (Decidable (_ ∧ _))

/-- The characters that the loop passes if it finds no difference. -/
def passed (a b : List Nat) : Nat := min (prefixOf a).length (prefixOf b).length

/-- The narrowed difference of the numbers that are read after the shorter prefix has the
sign of the order. Prefixes that differ in a character never get there. -/
def Tells (a b : List Nat) : Prop :=
  prefixOf a <+: prefixOf b ∨ prefixOf b <+: prefixOf a →
    SignOf (compareNumbers (a.drop (passed a b)) (b.drop (passed a b))) a b

instance (a b : List Nat) : Decidable (Tells a b) := inferInstanceAs (Decidable (_ → _))

/-- After the loop one string has no prefix left. -/
theorem tells_end {a b : List Nat} (hend : prefixOf a = [] ∨ prefixOf b = []) :
    Tells a b ↔ SignOf (compareNumbers a b) a b := by
  have hpassed : passed a b = 0 := by rcases hend with h | h <;> simp [passed, h]
  have hprefix : prefixOf a <+: prefixOf b ∨ prefixOf b <+: prefixOf a :=
    hend.imp (fun h => by simp [h]) fun h => by simp [h]
  rw [Tells, hpassed, drop_zero, drop_zero]
  exact ⟨fun h => h hprefix, fun h _ => h⟩

theorem signOf_cons {c : Nat} (hc : isHex c = false) {x : Int} {a b : List Nat} :
    SignOf x (c :: a) (c :: b) ↔ SignOf x a b := by
  simp [SignOf, key, prefixOf_cons hc, numberOf_cons hc, Prod.Lex.toLex_lt_toLex]

theorem tells_cons {c : Nat} (hc : isHex c = false) {a b : List Nat} : Tells (c :: a) (c :: b) ↔ Tells a b := by
  have hpassed : passed (c :: a) (c :: b) = passed a b + 1 := by
    simp only [passed, prefixOf_cons hc, length_cons, Nat.add_min_add_right]
  simp only [Tells, prefixOf_cons hc, prefix_cons_inj, hpassed, drop_succ_cons, signOf_cons hc]

/-- The comparison is right exactly if the numbers tell the order. -/
theorem signOf_compareNames (a b : List Nat) : SignOf (compareNames a b) a b ↔ Tells a b := by
  fun_induction compareNames a b with
  | case1 a as b bs hhex hne =>
    refine iff_of_true ?_ ?_
    · simp [SignOf, key, prefixOf_cons, hhex, Prod.Lex.toLex_lt_toLex, cons_lt_cons_iff, hne]
      omega
    · simp [Tells, prefixOf_cons, hhex, cons_prefix_cons, hne, Ne.symm hne]
  | case2 a as b bs hhex heq ih =>
    obtain rfl := not_ne_iff.1 heq
    rw [signOf_cons hhex.1, tells_cons hhex.1]
    exact ih
  | case3 a as b bs hhex =>
    refine (tells_end ?_).symm
    rw [not_and_or, Bool.not_eq_false, Bool.not_eq_false] at hhex
    exact hhex.imp (fun hx => by simp [prefixOf, hx]) fun hx => by simp [prefixOf, hx]
  | case4 a b hne =>
    refine (tells_end ?_).symm
    cases a with
    | nil => exact .inl rfl
    | cons x xs =>
      cases b with
      | nil => exact .inr rfl
      | cons y ys => exact (hne x xs y ys rfl rfl).elim

/-! ## The contract of `qsort` -/

structure SortOrder (ids : List acpi_id_t) : Prop where
  antisymm : ∀ a ∈ ids, ∀ b ∈ ids, (acpi_id_compare a b).sign = -(acpi_id_compare b a).sign
  trans : ∀ a ∈ ids, ∀ b ∈ ids, ∀ c ∈ ids,
    acpi_id_compare a b ≤ 0 → acpi_id_compare b c ≤ 0 → acpi_id_compare a c ≤ 0
  zero : ∀ a ∈ ids, ∀ b ∈ ids, ∀ c ∈ ids,
    acpi_id_compare a b = 0 → acpi_id_compare b c = 0 → acpi_id_compare a c = 0
  ascending : ∀ a ∈ ids, ∀ b ∈ ids, acpi_id_compare a b ≤ 0 ↔ key a.name ≤ key b.name

variable {ids : List acpi_id_t}

theorem SortOrder.signOf (h : SortOrder ids) {a b : acpi_id_t} (ha : a ∈ ids) (hb : b ∈ ids) :
    SignOf (acpi_id_compare a b) a.name b.name := by
  have hneg : acpi_id_compare a b < 0 ↔ ¬ acpi_id_compare b a ≤ 0 := by
    rw [← Int.sign_eq_neg_one_iff_neg, h.antisymm a ha b hb, neg_inj, Int.sign_eq_one_iff_pos, not_le]
  have hlt : acpi_id_compare a b < 0 ↔ key a.name < key b.name := by
    rw [hneg, h.ascending b hb a ha, not_le]
  refine ⟨hlt, ?_⟩
  have hle := h.ascending a ha b hb
  rw [le_iff_lt_or_eq, le_iff_lt_or_eq, hlt] at hle
  constructor
  · intro hzero
    exact (hle.1 (.inr hzero)).resolve_left fun hkey => (hlt.2 hkey).ne hzero
  · intro hkey
    exact (hle.2 (.inr hkey)).resolve_left fun hless => hless.ne hkey

theorem sortOrder_of_signOf (h : ∀ a ∈ ids, ∀ b ∈ ids, SignOf (acpi_id_compare a b) a.name b.name) : SortOrder ids := by
  have hle : ∀ a ∈ ids, ∀ b ∈ ids, acpi_id_compare a b ≤ 0 ↔ key a.name ≤ key b.name := by
    intro a ha b hb
    rw [le_iff_lt_or_eq, le_iff_lt_or_eq, (h a ha b hb).1, (h a ha b hb).2]
  have hpos : ∀ a ∈ ids, ∀ b ∈ ids, 0 < acpi_id_compare a b ↔ key b.name < key a.name := by
    intro a ha b hb
    rw [← not_le, hle a ha b hb, not_le]
  refine ⟨fun a ha b hb => ?_, fun a ha b hb c hc hab hbc => ?_, fun a ha b hb c hc hab hbc => ?_, hle⟩
  · have hneg := (h a ha b hb).1.trans (hpos b hb a ha).symm
    have hpos := (hpos a ha b hb).trans (h b hb a ha).1.symm
    grind [Int.sign_eq_neg_one_of_neg, Int.sign_eq_one_of_pos]
  · exact (hle a ha c hc).2 (((hle a ha b hb).1 hab).trans ((hle b hb c hc).1 hbc))
  · exact (h a ha c hc).2.2 (((h a ha b hb).2.1 hab).trans ((h b hb c hc).2.1 hbc))

/-- The sort is by the prefix and the number exactly if the numbers that are compared tell
the order of each two devices. -/
theorem sortOrder_iff (ids : List acpi_id_t) :
    SortOrder ids ↔ ∀ a ∈ ids, ∀ b ∈ ids, Tells a.name b.name := by
  constructor
  · intro h a ha b hb
    exact (signOf_compareNames _ _).1 (h.signOf ha hb)
  · intro h
    exact sortOrder_of_signOf fun a ha b hb => (signOf_compareNames _ _).2 (h a ha b hb)

/-- The identifiers `PNP0103`, `PNP0003` and `LI80000000`. -/
theorem timers_sorted :
    SortOrder [⟨[80, 78, 80, 48, 49, 48, 51], []⟩, ⟨[80, 78, 80, 48, 48, 48, 51], []⟩,
      ⟨[], [76, 73, 56, 48, 48, 48, 48, 48, 48, 48]⟩] :=
  (sortOrder_iff _).2 (by decide)

/-- Of the identifiers `80000000` and `0` each is before the other. -/
theorem far_not_sorted : ¬ SortOrder [⟨[56, 48, 48, 48, 48, 48, 48, 48], []⟩, ⟨[48], []⟩] := by
  intro h
  have hsign := h.antisymm _ mem_cons_self _ (mem_cons_of_mem _ mem_cons_self)
  exact absurd hsign (by decide)

end Patchwork.Acpi
