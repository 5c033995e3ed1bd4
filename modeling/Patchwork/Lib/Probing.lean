import Patchwork.Lib.Agents
/-!
# Linear probing

A table of `cap` slots keeps entries under keys. The search for a key starts at
its home slot and goes round the table; it stops at an empty slot or at an entry
with that key. Deleted slots are gone over. `Probed` is the invariant of such a
table: every entry is reached from the home of its key without passing an empty
slot, and no key is stored twice. The rules say that insertion into a slot that a
search has reached, deletion and replacement keep it, and that a search that
comes to its end without the key has shown that the key is not in the table.
-/

namespace Patchwork.Lib

open Finset Function

inductive Slot (α : Type) where
  | empty
  | deleted
  | full (a : α)
deriving Repr, DecidableEq

variable {α κ : Type} {cap : Nat} {slot slot' : Nat → Slot α} {key : α → κ} {home : κ → Nat}
  {f : Slot α → Bool}

/-- The slot that a search that starts at `h` looks at after `i` others. -/
def probe (cap h i : Nat) : Nat := (h + i) % cap

theorem probe_lt {h i : Nat} (hcap : 0 < cap) : probe cap h i < cap := Nat.mod_lt _ hcap

theorem probe_surjective {p : Nat} (h : Nat) (hp : p < cap) : ∃ i < cap, probe cap h i = p := by
  have hcap : 0 < cap := Nat.zero_lt_of_lt hp
  refine ⟨(p + (cap - h % cap)) % cap, Nat.mod_lt _ hcap, ?_⟩
  have hh : h % cap < cap := Nat.mod_lt _ hcap
  have hsum : h % cap + (p + (cap - h % cap)) = p + cap := by omega
  rw [probe, Nat.add_mod, Nat.mod_mod, ← Nat.add_mod, ← Nat.mod_add_mod, hsum, Nat.add_mod_right,
    Nat.mod_eq_of_lt hp]

/-- The slot is reached from `h` without passing an empty one. -/
def Reached (cap : Nat) (slot : Nat → Slot α) (h p : Nat) : Prop :=
  ∃ d < cap, probe cap h d = p ∧ ∀ i < d, slot (probe cap h i) ≠ .empty

theorem Reached.mono {h p : Nat} (hr : Reached cap slot h p) (hs : ∀ q, slot q ≠ .empty → slot' q ≠ .empty) :
    Reached cap slot' h p := by
  obtain ⟨d, hd, hp, hpath⟩ := hr
  exact ⟨d, hd, hp, fun i hi => hs _ (hpath i hi)⟩

structure Probed (cap : Nat) (slot : Nat → Slot α) (key : α → κ) (home : κ → Nat) : Prop where
  reached : ∀ p < cap, ∀ a, slot p = .full a → Reached cap slot (home (key a)) p
  unique : ∀ p < cap, ∀ q < cap, ∀ a b, slot p = .full a → slot q = .full b → key a = key b → p = q

theorem probed_of_none (h : ∀ p < cap, ∀ a, slot p ≠ .full a) : Probed cap slot key home :=
  ⟨fun p hp a ha => absurd ha (h p hp a), fun p hp _ _ a _ ha => absurd ha (h p hp a)⟩

theorem Probed.congr {key' : α → κ} (h : Probed cap slot key home)
    (hk : ∀ p < cap, ∀ a, slot p = .full a → key' a = key a) : Probed cap slot key' home where
  reached p hp a ha := by
    rw [hk p hp a ha]
    exact h.reached p hp a ha
  unique p hp q hq a b ha hb hab := by
    rw [hk p hp a ha, hk q hq b hb] at hab
    exact h.unique p hp q hq a b ha hb hab

theorem update_full_iff {p q : Nat} {a b : α} :
    update slot p (.full a) q = .full b ↔ q = p ∧ a = b ∨ q ≠ p ∧ slot q = .full b := by
  by_cases hq : q = p
  · rw [hq, update_self, Slot.full.injEq]
    simp
  · rw [update_of_ne hq]
    simp [hq]

theorem update_deleted_iff {p q : Nat} {b : α} : update slot p .deleted q = .full b ↔ q ≠ p ∧ slot q = .full b := by
  by_cases hq : q = p
  · rw [hq, update_self]
    simp
  · rw [update_of_ne hq]
    simp [hq]

theorem update_ne_empty {p q : Nat} {x : Slot α} (hx : x ≠ .empty) (hq : slot q ≠ .empty) : update slot p x q ≠ .empty := by
  by_cases hqp : q = p
  · rwa [hqp, update_self]
  · rwa [update_of_ne hqp]

/-- A slot is filled that a search for the key of the new entry has reached. -/
theorem Probed.insert (h : Probed cap slot key home) {p : Nat} {a : α}
    (hr : Reached cap slot (home (key a)) p)
    (habsent : ∀ q < cap, ∀ b, slot q = .full b → q ≠ p → key b ≠ key a) :
    Probed cap (update slot p (.full a)) key home := by
  have hmono : ∀ q, slot q ≠ .empty → update slot p (.full a) q ≠ .empty := fun q => update_ne_empty nofun
  constructor
  · intro q hq b hb
    rcases update_full_iff.1 hb with ⟨rfl, rfl⟩ | ⟨-, hb⟩
    · exact hr.mono hmono
    · exact (h.reached q hq b hb).mono hmono
  · intro q hq q' hq' b b' hb hb' hkey
    rcases update_full_iff.1 hb with ⟨rfl, rfl⟩ | ⟨hqp, hs⟩ <;>
      rcases update_full_iff.1 hb' with ⟨hqp', hab⟩ | ⟨hqp', hs'⟩
    · exact hqp'.symm
    · exact absurd hkey.symm (habsent q' hq' b' hs' hqp')
    · exact absurd (hab ▸ hkey) (habsent q hq b hs hqp)
    · exact h.unique q hq q' hq' b b' hs hs' hkey

theorem Probed.delete (h : Probed cap slot key home) (p : Nat) : Probed cap (update slot p .deleted) key home := by
  have hmono : ∀ q, slot q ≠ .empty → update slot p .deleted q ≠ .empty := fun q => update_ne_empty nofun
  have hold : ∀ q b, update slot p .deleted q = .full b → slot q = .full b :=
    fun q b hb => (update_deleted_iff.1 hb).2
  exact ⟨fun q hq b hb => (h.reached q hq b (hold q b hb)).mono hmono,
    fun q hq q' hq' b b' hb hb' => h.unique q hq q' hq' b b' (hold q b hb) (hold q' b' hb')⟩

/-- A search for `k` goes on after this slot. -/
def Passes (slot : Nat → Slot α) (key : α → κ) (k : κ) (p : Nat) : Prop :=
  slot p ≠ .empty ∧ ∀ a, slot p = .full a → key a ≠ k

/-- A search that has come to an empty slot has shown that the key is not there. -/
theorem Probed.absent_of_empty (h : Probed cap slot key home) {k : κ} {j : Nat} (hj : j < cap)
    (hpass : ∀ i < j, Passes slot key k (probe cap (home k) i))
    (he : slot (probe cap (home k) j) = .empty) : ∀ q < cap, ∀ b, slot q = .full b → key b ≠ k := by
  rintro q hq b hb rfl
  obtain ⟨d, hd, rfl, hpath⟩ := h.reached q hq b hb
  rcases Nat.lt_trichotomy d j with hlt | rfl | hgt
  · exact (hpass d hlt).2 b hb rfl
  · rw [he] at hb
    cases hb
  · exact hpath j hgt he

/-- A search that has gone all the way round has shown that the key is not there. -/
theorem absent_of_all {k : κ} {h : Nat} (hpass : ∀ i < cap, Passes slot key k (probe cap h i)) :
    ∀ q < cap, ∀ b, slot q = .full b → key b ≠ k := by
  intro q hq b hb
  obtain ⟨i, hi, rfl⟩ := probe_surjective h hq
  exact (hpass i hi).2 b hb

/-! ## Counting slots -/

def Slot.isFull : Slot α → Bool
  | .full _ => true
  | _ => false

def Slot.isDeleted : Slot α → Bool
  | .deleted => true
  | _ => false

/-- The number of slots of a kind. -/
def count (f : Slot α → Bool) (cap : Nat) (slot : Nat → Slot α) : Nat :=
  ((range cap).filter fun p => f (slot p) = true).card

theorem count_update (f : Slot α → Bool) (slot : Nat → Slot α) {p : Nat} (hp : p < cap) (x : Slot α) :
    count f cap (update slot p x) + (f (slot p)).toNat = count f cap slot + (f x).toNat := by
  rw [count, count, card_filter_eq _ fun q => f (update slot p x q), card_filter_eq _ fun q => f (slot q)]
  exact sum_update (mem_range.2 hp) (fun x => (f x).toNat) slot x

theorem count_le (f : Slot α → Bool) (cap : Nat) (slot : Nat → Slot α) : count f cap slot ≤ cap := by
  have h := card_filter_le (range cap) fun p => f (slot p) = true
  rwa [card_range] at h

theorem count_pos {p : Nat} (hp : p < cap) (hf : f (slot p) = true) : 0 < count f cap slot :=
  card_pos.2 ⟨p, mem_filter.2 ⟨mem_range.2 hp, hf⟩⟩

theorem count_eq_cap (h : ∀ p < cap, f (slot p) = true) : count f cap slot = cap := by
  rw [count, filter_true_of_mem fun p hp => h p (mem_range.1 hp), card_range]

theorem count_eq_zero (h : ∀ p < cap, f (slot p) = false) : count f cap slot = 0 := by
  rw [count, card_eq_zero, filter_eq_empty_iff]
  intro p hp
  rw [h p (mem_range.1 hp)]
  exact nofun

end Patchwork.Lib
