import Patchwork.Utils.Bitmap
/-!
# Iterating over a bitmap (`BITMAP_FOR_EACH_SET`)

The macro copies each word and takes its bits from the lowest up, so the body
may clear the bit it is called with. The loop is a fold over the set bits.
-/

namespace Patchwork

open BitVec List

variable {α : Type}

/-- The loop over one word, which loses its lowest bit in each round. -/
def bitmap_for_each_word (length qwordIdx : Nat) (body : α → Nat → α) : Nat → BitVec 64 → α → α
  | 0, _, s => s
  | n + 1, tempQword, s =>
    if tempQword = 0#64 then s
    else
      let idx := qwordIdx * 64 + ctz tempQword
      bitmap_for_each_word length qwordIdx body n (tempQword &&& (tempQword - 1#64)) (if idx < length then body s idx else s)

/-- `map` is the bitmap in the state of the loop; a word has at most 64 bits. -/
def BITMAP_FOR_EACH_SET (map : α → bitmap_t) (body : α → Nat → α) (s : α) : α :=
  (List.range (BITMAP_BITS_TO_QWORDS (map s).length)).foldl (fun s qwordIdx =>
    bitmap_for_each_word (map s).length qwordIdx body 64 ((map s).buffer qwordIdx) s) s

/-! ## The lowest bit -/

theorem toNat_lowest {w : BitVec 64} (h : w ≠ 0#64) : w.toNat % 2 ^ (ctz w + 1) = 2 ^ ctz w := by
  obtain ⟨-, hset, hlow⟩ := ctz_spec h
  refine Nat.eq_of_testBit_eq fun i => ?_
  rw [Nat.testBit_mod_two_pow, Nat.testBit_two_pow, testBit_toNat]
  by_cases hi : i < ctz w
  · rw [hlow i hi, Bool.and_false, decide_eq_false (by omega : ¬ctz w = i)]
  · by_cases he : ctz w = i
    · rw [← he, hset]
      simp
    · simp [he, show ¬i < ctz w + 1 by omega]

/-- `tempQword &= tempQword - 1` clears the lowest bit alone. -/
theorem getLsbD_and_sub_one {w : BitVec 64} (h : w ≠ 0#64) (i : Nat) :
    (w &&& (w - 1#64)).getLsbD i = (w.getLsbD i && decide (i ≠ ctz w)) := by
  obtain ⟨hlt, hset, hlow⟩ := ctz_spec h
  have hmod := toNat_lowest h
  have hdiv := Nat.div_add_mod w.toNat (2 ^ (ctz w + 1))
  have hpos := Nat.two_pow_pos (ctz w)
  have hpow : 2 ^ (ctz w + 1) = 2 * 2 ^ ctz w := by rw [Nat.pow_succ, Nat.mul_comm]
  have hsub : (w - 1#64).toNat = 2 ^ (ctz w + 1) * (w.toNat / 2 ^ (ctz w + 1)) + (2 ^ ctz w - 1) := by
    have hw := w.isLt
    rw [toNat_sub, toNat_ofNat]
    omega
  rw [getLsbD_and]
  by_cases hi : i < ctz w
  · rw [hlow i hi, Bool.false_and, Bool.false_and]
  · by_cases he : i = ctz w
    · have hzero : (w - 1#64).getLsbD i = false := by
        rw [← testBit_toNat, hsub, Nat.testBit_two_pow_mul_add _ (by omega), if_pos (by omega),
          Nat.testBit_two_pow_sub_one, decide_eq_false hi]
      rw [hzero, Bool.and_false, decide_eq_false (by simpa using he), Bool.and_false]
    · have hsame : (w - 1#64).getLsbD i = w.getLsbD i := by
        rw [← testBit_toNat, ← testBit_toNat, hsub, Nat.testBit_two_pow_mul_add _ (by omega),
          if_neg (by omega)]
        conv_rhs => rw [← hdiv]
        rw [Nat.testBit_two_pow_mul_add _ (by omega), if_neg (by omega)]
      rw [hsame, Bool.and_self, decide_eq_true he, Bool.and_true]

theorem range_split {n m : Nat} (h : n ≤ m) : List.range m = List.range n ++ List.range' n (m - n) := by
  have := @range'_append_1 0 n (m - n)
  rw [Nat.zero_add, Nat.add_sub_cancel' h] at this
  rw [range_eq_range', range_eq_range', this]

/-- The set bits of a word, the lowest first. -/
def setBits (w : BitVec 64) : List Nat := (List.range 64).filter fun i => w.getLsbD i

theorem setBits_cons {w : BitVec 64} (h : w ≠ 0#64) : setBits w = ctz w :: setBits (w &&& (w - 1#64)) := by
  obtain ⟨hlt, hset, hlow⟩ := ctz_spec h
  have hsplit : List.range 64 = List.range (ctz w) ++ ctz w :: List.range' (ctz w + 1) (63 - ctz w) := by
    rw [range_split (Nat.le_of_lt hlt), ← range'_succ]
    congr 2
    omega
  have hnone : ∀ p : Nat → Bool, (∀ i < ctz w, p i = false) → (List.range (ctz w)).filter p = [] := by
    intro p hp
    rw [filter_eq_nil_iff]
    intro i hi
    rw [hp i (mem_range.1 hi)]
    exact Bool.false_ne_true
  unfold setBits
  rw [hsplit, filter_append, filter_append, hnone _ hlow, nil_append, filter_cons_of_pos hset,
    hnone _ fun i hi => by rw [getLsbD_and_sub_one h, hlow i hi, Bool.false_and], nil_append,
    filter_cons_of_neg (by rw [getLsbD_and_sub_one h]; simp)]
  congr 1
  refine filter_congr fun i hi => ?_
  rw [mem_range'_1] at hi
  rw [getLsbD_and_sub_one h, decide_eq_true (by omega : i ≠ ctz w), Bool.and_true]

/-! ## The loop -/

theorem for_each_word_eq (length q : Nat) (body : α → Nat → α) (n : Nat) (w : BitVec 64) (s : α)
    (hn : ∀ i < 64 - n, w.getLsbD i = false) :
    bitmap_for_each_word length q body n w s =
      (((setBits w).map (q * 64 + ·)).filter (· < length)).foldl body s := by
  induction n generalizing w s with
  | zero =>
    have hempty : setBits w = [] := by
      rw [setBits, filter_eq_nil_iff]
      intro i hi
      rw [hn i (mem_range.1 hi)]
      exact Bool.false_ne_true
    rw [bitmap_for_each_word, hempty]
    rfl
  | succ n ih =>
    rw [bitmap_for_each_word]
    split
    · rename_i hw
      rw [hw]
      rfl
    · rename_i hw
      obtain ⟨hlt, hset, -⟩ := ctz_spec hw
      have hge : 64 - (n + 1) ≤ ctz w := by
        by_contra hc
        rw [hn (ctz w) (by omega)] at hset
        cases hset
      have hn' : ∀ i < 64 - n, (w &&& (w - 1#64)).getLsbD i = false := by
        intro i hi
        rw [getLsbD_and_sub_one hw]
        by_cases he : i = ctz w
        · simp [he]
        · rw [(ctz_spec hw).2.2 i (by omega), Bool.false_and]
      simp only [ih _ _ hn', setBits_cons hw, map_cons, filter_cons]
      by_cases hl : q * 64 + ctz w < length
      · simp [hl]
      · simp [hl]

/-- The body changes no word but that of its bit. -/
structure KeepsWords (map : α → bitmap_t) (body : α → Nat → α) : Prop where
  length : ∀ s i, (map (body s i)).length = (map s).length
  buffer : ∀ s i q, q ≠ i / 64 → (map (body s i)).buffer q = (map s).buffer q

section Fold
variable {map : α → bitmap_t} {body : α → Nat → α} (hb : KeepsWords map body)
include hb

theorem KeepsWords.foldl_length (l : List Nat) (s : α) : (map (l.foldl body s)).length = (map s).length := by
  induction l generalizing s with
  | nil => rfl
  | cons i l ih => rw [foldl_cons, ih, hb.length]

theorem KeepsWords.foldl_buffer {l : List Nat} {q : Nat} (hl : ∀ i ∈ l, q ≠ i / 64) (s : α) :
    (map (l.foldl body s)).buffer q = (map s).buffer q := by
  induction l generalizing s with
  | nil => rfl
  | cons i l ih =>
    rw [foldl_cons, ih fun j hj => hl j (mem_cons_of_mem _ hj), hb.buffer _ _ _ (hl i mem_cons_self)]

/-- The set bits of the words from `q` on. -/
theorem KeepsWords.for_each_words (n : Nat) : ∀ q s, (List.range' q n).foldl (fun s q =>
    bitmap_for_each_word (map s).length q body 64 ((map s).buffer q) s) s =
      (((List.range' (q * 64) (n * 64)).filter (map s).bit).filter (· < (map s).length)).foldl body s := by
  induction n with
  | zero => intro q s; simp
  | succ n ih =>
    intro q s
    have hword : ((List.range' (q * 64) 64).filter (map s).bit).filter (· < (map s).length) =
        ((setBits ((map s).buffer q)).map (q * 64 + ·)).filter (· < (map s).length) := by
      congr 1
      rw [range'_eq_map_range, filter_map, setBits]
      congr 1
      refine filter_congr fun i hi => ?_
      exact bit_word _ q (mem_range.1 hi)
    have hsplit : List.range' (q * 64) ((n + 1) * 64) = List.range' (q * 64) 64 ++ List.range' ((q + 1) * 64) (n * 64) := by
      rw [show (q + 1) * 64 = q * 64 + 64 by omega, range'_append_1, show (n + 1) * 64 = 64 + n * 64 by omega]
    rw [range'_succ, foldl_cons, for_each_word_eq _ _ _ _ _ _ (by simp), ih, hsplit, filter_append,
      filter_append, foldl_append, hword]
    -- The words from `q + 1` on are as they were before word `q`.
    congr 1
    have hlen := hb.foldl_length (((setBits ((map s).buffer q)).map (q * 64 + ·)).filter (· < (map s).length)) s
    rw [hlen]
    congr 1
    refine filter_congr fun i hi => ?_
    rw [mem_range'_1] at hi
    have hkeep : ∀ j ∈ ((setBits ((map s).buffer q)).map (q * 64 + ·)).filter (· < (map s).length), i / 64 ≠ j / 64 := by
      intro j hj
      obtain ⟨k, hk, rfl⟩ := mem_map.1 (mem_filter.1 hj).1
      have hk64 := mem_range.1 (mem_filter.1 hk).1
      omega
    rw [bitmap_t.bit, bitmap_t.bit, hb.foldl_buffer hkeep]

theorem KeepsWords.for_each_set (s : α) :
    BITMAP_FOR_EACH_SET map body s = ((List.range (map s).length).filter (map s).bit).foldl body s := by
  have hq : (map s).length ≤ BITMAP_BITS_TO_QWORDS (map s).length * 64 := by
    unfold BITMAP_BITS_TO_QWORDS
    omega
  rw [BITMAP_FOR_EACH_SET, range_eq_range', hb.for_each_words, Nat.zero_mul, ← range_eq_range', range_split hq,
    filter_append, filter_append]
  -- The bits from `length` on, in the last word, are left out.
  have hbeyond : ((List.range' (map s).length (BITMAP_BITS_TO_QWORDS (map s).length * 64 - (map s).length)).filter
      (map s).bit).filter (· < (map s).length) = [] := by
    rw [filter_eq_nil_iff]
    intro i hi
    have := mem_range'_1.1 (mem_filter.1 hi).1
    simp only [decide_eq_true_eq]
    omega
  have hbelow : ((List.range (map s).length).filter (map s).bit).filter (· < (map s).length) =
      (List.range (map s).length).filter (map s).bit := by
    rw [filter_eq_self]
    intro i hi
    exact decide_eq_true (mem_range.1 (mem_filter.1 hi).1)
  rw [hbeyond, hbelow, append_nil]

end Fold

/-! ## The words as one bitmap -/

/-- The bits of the last word beyond the length are zero, and no bit below the
hint is clear. -/
structure bitmap_t.WellFormed (map : bitmap_t) : Prop where
  padding : ∀ i, map.length ≤ i → i < BITMAP_BITS_TO_QWORDS map.length * 64 → map.bit i = false
  hint : ∀ i < map.length, i < map.firstZeroIdx → map.bit i = true

variable {map : bitmap_t}

/-- An operation that changes bits below the length alone, and lowers the hint
to those it clears. -/
theorem bitmap_t.WellFormed.update (h : map.WellFormed) {map' : bitmap_t} (hlen : map'.length = map.length)
    (hfirst : map'.firstZeroIdx ≤ map.firstZeroIdx)
    (hbits : ∀ i, map'.bit i = map.bit i ∨ i < map.length ∧ (map'.bit i = true ∨ map'.firstZeroIdx ≤ i)) :
    map'.WellFormed where
  padding i hi hpad := by
    rw [hlen] at hi hpad
    rcases hbits i with heq | hlt
    · rw [heq]
      exact h.padding i hi hpad
    · omega
  hint i hi hlt := by
    rw [hlen] at hi
    rcases hbits i with heq | ⟨-, hset | hge⟩
    · rw [heq]
      exact h.hint i hi (by omega)
    · exact hset
    · omega

theorem bitmap_t.WellFormed.set_range (h : map.WellFormed) (low high : Nat) :
    (bitmap_set_range map low high).WellFormed := by
  refine h.update (length_set_range _ _ _) (Nat.le_of_eq (firstZeroIdx_set_range _ _ _)) fun i => ?_
  rw [bit_set_range]
  by_cases hr : inRange map low high i = true
  · rw [hr]
    have := of_decide_eq_true hr
    exact .inr ⟨by omega, .inl rfl⟩
  · rw [Bool.not_eq_true _ |>.mp hr]
    exact .inl rfl

theorem bitmap_t.WellFormed.clear_range (h : map.WellFormed) (low high : Nat) :
    (bitmap_clear_range map low high).WellFormed := by
  have hfirst := firstZeroIdx_clear_range map low high
  refine h.update (length_clear_range _ _ _) ?_ fun i => ?_
  · rw [hfirst]
    split <;> omega
  · rw [bit_clear_range]
    by_cases hr : inRange map low high i = true
    · have := of_decide_eq_true hr
      rw [if_pos (by omega)] at hfirst
      exact .inr ⟨by omega, .inr (by omega)⟩
    · rw [Bool.not_eq_true _ |>.mp hr]
      exact .inl rfl

/-- The operations on words are those on bits: the ranges change their bits
alone, the searches find the first bit, and the iterations see the set bits
below the length. -/
theorem words_as_bits (h : map.WellFormed) :
    (∀ low high, (bitmap_set_range map low high).WellFormed ∧ (bitmap_clear_range map low high).WellFormed ∧
      ∀ i, (bitmap_set_range map low high).bit i = (inRange map low high i || map.bit i) ∧
        (bitmap_clear_range map low high).bit i = (!inRange map low high i && map.bit i)) ∧
    (∀ startIdx endIdx, endIdx ≤ map.length →
      Found map true startIdx endIdx endIdx (bitmap_find_first_set map startIdx endIdx) ∧
        Found map false startIdx endIdx endIdx (bitmap_find_first_clear map startIdx endIdx)) ∧
    (bitmap_is_empty map = true ↔ ∀ i < map.length, map.bit i = false) ∧
    ∀ (α : Type) (mapOf : α → bitmap_t) body s, KeepsWords mapOf body → mapOf s = map →
      BITMAP_FOR_EACH_SET mapOf body s = ((List.range map.length).filter map.bit).foldl body s := by
  refine ⟨fun low high => ⟨h.set_range low high, h.clear_range low high, fun i => ?_⟩, fun startIdx endIdx hend => ?_,
    is_empty_iff map, ?_⟩
  · exact ⟨bit_set_range map low high i, bit_clear_range map low high i⟩
  · exact ⟨find_first_set_found map startIdx hend, find_first_clear_found map startIdx hend h.hint⟩
  · rintro α mapOf body s hb rfl
    exact hb.for_each_set s

/-- A bitmap of 70 bits. The bits 0 to 2, 4, 64 and 66 are set. -/
def seventy : bitmap_t := { firstZeroIdx := 3, length := 70, buffer := fun i => if i = 0 then 0x17#64 else 0x5#64 }

/-- The search from bit 64 on in the last word. -/
theorem words_as_bits_seventy : bitmap_find_first_clear seventy 64 70 = 65 ∧
    Found seventy false 64 70 70 (bitmap_find_first_clear seventy 64 70) :=
  have h : seventy.WellFormed := ⟨by decide, by decide⟩
  ⟨by decide, ((words_as_bits h).2.1 64 70 (by decide)).2⟩

end Patchwork
