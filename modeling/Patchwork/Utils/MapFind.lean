import Patchwork.Utils.Map
/-!
# Finding a slot

`map_find_slot` is a search of `Lib.Probing`: it ends at an entry with the key, at
an empty slot, or after the whole table, and for an insertion it may return a
deleted slot that it has passed. The capacities of a map are powers of two, which
turns the masks of the source into remainders.
-/

namespace Patchwork.Map

open Lib

variable {E : Type}

/-! ## Powers of two -/

def IsPow2 (n : Nat) : Prop := ∃ k, n = 2 ^ k

theorem land_pred {n : Nat} (h : IsPow2 n) (x : Nat) : x &&& (n - 1) = x % n := by
  obtain ⟨k, rfl⟩ := h
  exact Nat.and_two_pow_sub_one_eq_mod x k

/-- Each turn of the smearing doubles the width of what a bit collects. -/
theorem testBit_smear {n x w : Nat} (h : ∀ i, x.testBit i = true ↔ ∃ j < w, n.testBit (i + j) = true) (i : Nat) :
    (x ||| x >>> w).testBit i = true ↔ ∃ j < 2 * w, n.testBit (i + j) = true := by
  rw [Nat.testBit_or, Bool.or_eq_true, Nat.testBit_shiftRight, h, h]
  constructor
  · rintro (⟨j, hj, hb⟩ | ⟨j, hj, hb⟩)
    · exact ⟨j, by omega, hb⟩
    · exact ⟨w + j, by omega, by rwa [← Nat.add_assoc, Nat.add_comm i w]⟩
  · rintro ⟨j, hj, hb⟩
    rcases Nat.lt_or_ge j w with hlt | hge
    · exact .inl ⟨j, hlt, hb⟩
    · refine .inr ⟨j - w, by omega, ?_⟩
      rw [show w + i + (j - w) = i + j by omega]
      exact hb

/-- A number that has all bits set up to its highest one. -/
theorem smear_succ {n x : Nat} (hpos : 0 < n) (hn : n < 2 ^ 64)
    (h : ∀ i, x.testBit i = true ↔ ∃ j < 64, n.testBit (i + j) = true) : ∃ k, x + 1 = 2 ^ k ∧ k ≤ 64 := by
  have hlog : n.log2 < 64 := (Nat.log2_lt hpos.ne').2 hn
  refine ⟨n.log2 + 1, ?_, hlog⟩
  have hx : x = 2 ^ (n.log2 + 1) - 1 := by
    apply Nat.eq_of_testBit_eq
    intro i
    rw [Nat.testBit_two_pow_sub_one, Bool.eq_iff_iff, h, decide_eq_true_iff]
    constructor
    · rintro ⟨j, -, hb⟩
      by_contra hlt
      have : n < 2 ^ (i + j) := lt_of_lt_of_le Nat.lt_log2_self (Nat.pow_le_pow_right (by decide) (by omega))
      rw [Nat.testBit_lt_two_pow this] at hb
      cases hb
    · intro hi
      refine ⟨n.log2 - i, by omega, ?_⟩
      rw [show i + (n.log2 - i) = n.log2 by omega]
      exact Nat.testBit_log2 hpos.ne'
  have := Nat.two_pow_pos (n.log2 + 1)
  omega

theorem isPow2_of_land_pred {n : Nat} (hpos : 0 < n) (h : n &&& (n - 1) = 0) : IsPow2 n :=
  (Nat.and_sub_one_eq_zero_iff_isPowerOfTwo hpos.ne').1 h

theorem isPow2_next_pow2 {n : Nat} (hn : n < 2 ^ 64) : IsPow2 (next_pow2 n) := by
  unfold next_pow2
  split_ifs with h1 h2
  · exact ⟨1, rfl⟩
  · exact isPow2_of_land_pred h2.1 h2.2
  · have h0 : ∀ i, (n - 1).testBit i = true ↔ ∃ j < 1, (n - 1).testBit (i + j) = true := by
      intro i
      simp
    have hs := testBit_smear (testBit_smear (testBit_smear (testBit_smear (testBit_smear (testBit_smear h0)))))
    obtain ⟨k, hk, hk64⟩ := smear_succ (by omega) (by omega) hs
    dsimp only at hk ⊢
    rw [hk]
    rcases Nat.lt_or_ge k 64 with hlt | hge
    · rw [Nat.mod_eq_of_lt (Nat.pow_lt_pow_right (by decide) hlt), if_neg (Nat.two_pow_pos k).ne']
      exact ⟨k, rfl⟩
    · obtain rfl : k = 64 := Nat.le_antisymm hk64 hge
      exact ⟨63, by decide⟩

theorem next_pow2_lt {n : Nat} (hn : n < 2 ^ 64) : next_pow2 n < 2 ^ 64 := by
  unfold next_pow2
  split_ifs with h1 h2
  · decide
  · exact hn
  · dsimp only
    split_ifs
    · decide
    · exact Nat.mod_lt _ (by decide)

/-! ## Keys -/

/-- The bytes of the key of an entry. -/
def keyOf (entry : E → map_entry_t) (e : E) : List UInt8 := (entry e).key.key

/-- Keys made with the same hash function are equal exactly if their bytes are. -/
theorem key_is_equal_iff (hash : List UInt8 → Nat) (a b : List UInt8) :
    map_key_is_equal (map_key_buffer hash a) (map_key_buffer hash b) = true ↔ a = b := by
  unfold map_key_is_equal map_key_buffer
  split_ifs with h1 h2
  · refine ⟨nofun, ?_⟩
    rintro rfl
    exact h1 rfl
  · refine ⟨nofun, ?_⟩
    rintro rfl
    exact h2 rfl
  · exact beq_iff_eq

/-- The keys of the entries in the table are made with the hash function. -/
def Keyed (hash : List UInt8 → Nat) (map : map_t E) (entry : E → map_entry_t) : Prop :=
  ∀ p < map.capacity, ∀ e, map.entries p = .full e → (entry e).key = map_key_buffer hash (keyOf entry e)

/-! ## The search -/

section Search
variable (hash : List UInt8 → Nat) (map : map_t E) (entry : E → map_entry_t) (k : List UInt8)

/-- The slot that the search for `k` looks at after `i` others. -/
def probeAt (i : Nat) : Nat := probe map.capacity (hash k) i

/-- What the loop remembers of the deleted slots among the first `i`. -/
def Remembers (forInsertion : Bool) (i : Nat) : Option Nat → Prop
  | none => forInsertion = true → ∀ j < i, map.entries (probeAt hash map k j) ≠ .deleted
  | some p => forInsertion = true ∧ ∃ j < i, map.entries (probeAt hash map k j) = .deleted ∧ p = probeAt hash map k j

/-- How a search can end. -/
inductive Outcome (forInsertion : Bool) : Option Nat → Prop
  | found (j : Nat) (e : E) (hj : j < map.capacity) (he : map.entries (probeAt hash map k j) = .full e)
      (hk : keyOf entry e = k) : Outcome forInsertion (some (probeAt hash map k j))
  | empty (j : Nat) (hj : j < map.capacity) (he : map.entries (probeAt hash map k j) = .empty)
      (hpass : ∀ i < j, Passes map.entries (keyOf entry) k (probeAt hash map k i)) :
      Outcome forInsertion (some (probeAt hash map k j))
  | deleted (j i : Nat) (hj : j ≤ map.capacity) (hi : i < j) (hins : forInsertion = true)
      (hend : j = map.capacity ∨ map.entries (probeAt hash map k j) = .empty)
      (he : map.entries (probeAt hash map k i) = .deleted)
      (hpass : ∀ i < j, Passes map.entries (keyOf entry) k (probeAt hash map k i)) :
      Outcome forInsertion (some (probeAt hash map k i))
  | none (hdel : forInsertion = true → ∀ i < map.capacity, map.entries (probeAt hash map k i) ≠ .deleted)
      (hpass : ∀ i < map.capacity, Passes map.entries (keyOf entry) k (probeAt hash map k i)) :
      Outcome forInsertion none

variable {hash map entry k}

theorem outcome_findLoop (hcap : IsPow2 map.capacity) (hkeyed : Keyed hash map entry) {forInsertion : Bool}
    {left i : Nat} {tombstone : Option Nat} (hleft : i + left = map.capacity)
    (htomb : Remembers hash map k forInsertion i tombstone)
    (hpass : ∀ j < i, Passes map.entries (keyOf entry) k (probeAt hash map k j)) :
    Outcome hash map entry k forInsertion (findLoop map entry (map_key_buffer hash k) forInsertion
      ((map_key_buffer hash k).hash &&& (map.capacity - 1)) left i tombstone) := by
  induction left generalizing i tombstone with
  | zero =>
    obtain rfl : i = map.capacity := by omega
    unfold findLoop
    cases tombstone with
    | none =>
      rw [ite_self]
      exact .none htomb hpass
    | some p =>
      obtain ⟨hins, j, hj, hdel, rfl⟩ := htomb
      rw [if_pos hins]
      exact .deleted _ j le_rfl hj hins (.inl rfl) hdel hpass
  | succ left ih =>
    have hi : i < map.capacity := by omega
    have hindex : ((map_key_buffer hash k).hash &&& (map.capacity - 1)) + i &&& (map.capacity - 1) =
        probeAt hash map k i := by
      rw [land_pred hcap, land_pred hcap, Nat.mod_add_mod]
      rfl
    unfold findLoop
    dsimp only
    rw [hindex]
    split
    · rename_i he
      split_ifs with h
      · cases tombstone with
        | none => exact absurd rfl h.2
        | some p =>
          obtain ⟨hins, j, hj, hdel, rfl⟩ := htomb
          exact .deleted i j hi.le hj hins (.inr he) hdel hpass
      · exact .empty i hi he hpass
    · rename_i he
      have hpass' : Passes map.entries (keyOf entry) k (probeAt hash map k i) := by
        rw [Passes, he]
        exact ⟨nofun, nofun⟩
      refine ih (by omega) ?_ (Nat.forall_lt_succ_right.2 ⟨hpass, hpass'⟩)
      cases tombstone with
      | none =>
        by_cases hins : forInsertion = true
        · rw [if_pos ⟨hins, rfl⟩]
          exact ⟨hins, i, Nat.lt_succ_self i, he, rfl⟩
        · rw [if_neg (fun h => hins h.1)]
          exact fun h => absurd h hins
      | some p =>
        obtain ⟨hins, j, hj, hdel, rfl⟩ := htomb
        rw [if_neg (by simp)]
        exact ⟨hins, j, Nat.lt_succ_of_lt hj, hdel, rfl⟩
    · rename_i e he
      have hp : probeAt hash map k i < map.capacity := probe_lt (by omega)
      have hkey := key_is_equal_iff hash (keyOf entry e) k
      rw [← hkeyed _ hp e he] at hkey
      split_ifs with h
      · exact .found i e hi he (hkey.1 h)
      · have hpass' : Passes map.entries (keyOf entry) k (probeAt hash map k i) := by
          rw [Passes, he]
          refine ⟨nofun, fun e' he' hk => h (hkey.2 ?_)⟩
          rw [Slot.full.inj he']
          exact hk
        refine ih (by omega) ?_ (Nat.forall_lt_succ_right.2 ⟨hpass, hpass'⟩)
        cases tombstone with
        | none => exact fun hins => Nat.forall_lt_succ_right.2 ⟨htomb hins, he ▸ nofun⟩
        | some p =>
          obtain ⟨hins, j, hj, hdel, rfl⟩ := htomb
          exact ⟨hins, j, Nat.lt_succ_of_lt hj, hdel, rfl⟩

theorem outcome_find_slot (hcap : IsPow2 map.capacity) (hkeyed : Keyed hash map entry) (forInsertion : Bool) :
    Outcome hash map entry k forInsertion (map_find_slot map entry (map_key_buffer hash k) forInsertion) :=
  outcome_findLoop hcap hkeyed (Nat.zero_add _) (fun _ _ hj => absurd hj (Nat.not_lt_zero _))
    fun _ hj => absurd hj (Nat.not_lt_zero _)

end Search

end Patchwork.Map
