import Mathlib
/-!
# Bitmaps (`include/sys/bitmap.h`)

A bitmap is a buffer of 64-bit words. The functions below follow the header
word by word: the masks of the range operations, the scan over whole words,
and the search for a clear region. All index arithmetic is on `uint64_t`, so
sums and differences are taken modulo `2 ^ 64`.

`bitmap_t.bit` reads one bit of the buffer; each function has one lemma that
says what it does to the bits, and users of bitmaps cite only these.
-/

namespace Patchwork

open BitVec List

/-- `MAX` and `MIN` are Lean's `max` and `min`; this is `ROUND_UP` of
`sys/math.h`, on `uint64_t`. -/
def ROUND_UP (number multiple : Nat) : Nat :=
  (number + multiple - 1) % 2 ^ 64 / multiple * multiple

structure bitmap_t where
  firstZeroIdx : Nat
  length : Nat
  buffer : Nat → BitVec 64

def BITMAP_BITS_TO_QWORDS (bits : Nat) : Nat := (bits + 63) / 64

/-- `BITMAP_CREATE_ZERO`: every word of the buffer is zero. -/
def BITMAP_CREATE_ZERO (bits : Nat) : bitmap_t :=
  { firstZeroIdx := 0, length := bits, buffer := fun _ => 0#64 }

/-- `BITMAP_CREATE_ONE`: the initializer `{-1ULL}` gives the first word only;
C fills the rest of the array with zeros. -/
def BITMAP_CREATE_ONE (bits : Nat) : bitmap_t :=
  { firstZeroIdx := 0, length := bits, buffer := fun i => if i = 0 then BitVec.allOnes 64 else 0#64 }

/-- `__builtin_ctzll`: the index of the lowest set bit. -/
def ctz (w : BitVec 64) : Nat := ((range 64).find? fun i => w.getLsbD i).getD 64

namespace bitmap_t

/-- Bit `i` of the buffer. -/
def bit (map : bitmap_t) (i : Nat) : Bool := (map.buffer (i / 64)).getLsbD (i % 64)

/-- Replace word `i` of the buffer. -/
def setWord (map : bitmap_t) (i : Nat) (w : BitVec 64) : bitmap_t :=
  { map with buffer := Function.update map.buffer i w }

end bitmap_t

/-! ## The functions of the header -/

def bitmap_is_empty (map : bitmap_t) : Bool :=
  let fullQwords := map.length / 64
  if (range fullQwords).any fun i => map.buffer i != 0#64 then false
  else
    let remainingBits := map.length % 64
    if remainingBits != 0 && map.buffer fullQwords &&& (1#64 <<< remainingBits - 1#64) != 0#64 then false
    else true

def bitmap_is_set (map : bitmap_t) (idx : Nat) : Bool :=
  if idx ≥ map.length then false
  else map.buffer (idx / 64) &&& 1#64 <<< (idx % 64) != 0#64

def bitmap_set (map : bitmap_t) (index : Nat) : bitmap_t :=
  if index ≥ map.length then map
  else map.setWord (index / 64) (map.buffer (index / 64) ||| 1#64 <<< (index % 64))

/-- The words strictly between `first` and `last` get the value `w`. -/
def bitmap_fill_words (map : bitmap_t) (first last : Nat) (w : BitVec 64) : bitmap_t :=
  { map with buffer := fun i => if first < i ∧ i < last then w else map.buffer i }

def bitmap_set_range (map : bitmap_t) (low high : Nat) : bitmap_t :=
  if low ≥ high ∨ high > map.length then map
  else
    let firstQwordIdx := low / 64
    let firstBitInQword := low % 64
    let lastQwordIdx := (high - 1) / 64
    let lastBitInQword := (high - 1) % 64
    let firstMask := BitVec.allOnes 64 <<< firstBitInQword
    let lastMask := BitVec.allOnes 64 >>> (63 - lastBitInQword)
    if firstQwordIdx = lastQwordIdx then
      map.setWord firstQwordIdx (map.buffer firstQwordIdx ||| firstMask &&& lastMask)
    else
      let map := map.setWord firstQwordIdx (map.buffer firstQwordIdx ||| firstMask)
      let map := bitmap_fill_words map firstQwordIdx lastQwordIdx (BitVec.allOnes 64)
      map.setWord lastQwordIdx (map.buffer lastQwordIdx ||| lastMask)

def bitmap_clear (map : bitmap_t) (index : Nat) : bitmap_t :=
  if index ≥ map.length then map
  else
    let map := map.setWord (index / 64) (map.buffer (index / 64) &&& ~~~(1#64 <<< (index % 64)))
    { map with firstZeroIdx := min map.firstZeroIdx index }

def bitmap_clear_range (map : bitmap_t) (low high : Nat) : bitmap_t :=
  if low ≥ high ∨ high > map.length then map
  else
    let map := if low < map.firstZeroIdx then { map with firstZeroIdx := low } else map
    let firstQwordIdx := low / 64
    let firstBitInQword := low % 64
    let lastQwordIdx := (high - 1) / 64
    let lastBitInQword := (high - 1) % 64
    let firstMask := BitVec.allOnes 64 <<< firstBitInQword
    let lastMask := BitVec.allOnes 64 >>> (63 - lastBitInQword)
    if firstQwordIdx = lastQwordIdx then
      map.setWord firstQwordIdx (map.buffer firstQwordIdx &&& ~~~(firstMask &&& lastMask))
    else
      let map := map.setWord firstQwordIdx (map.buffer firstQwordIdx &&& ~~~firstMask)
      let map := bitmap_fill_words map firstQwordIdx lastQwordIdx 0#64
      map.setWord lastQwordIdx (map.buffer lastQwordIdx &&& ~~~lastMask)

/-- The `for` loop of `bitmap_find_first_clear`, over `n` words from word `i` on. -/
def bitmap_find_first_clear_loop (map : bitmap_t) (endIdx : Nat) : Nat → Nat → Nat
  | _, 0 => map.length
  | i, n + 1 =>
    if map.buffer i != BitVec.allOnes 64 then
      let res := i * 64 + ctz (~~~map.buffer i)
      if res < endIdx then res else map.length
    else bitmap_find_first_clear_loop map endIdx (i + 1) n

def bitmap_find_first_clear (map : bitmap_t) (startIdx endIdx : Nat) : Nat :=
  if map.firstZeroIdx ≥ map.length then map.length
  else
    let startIdx := max startIdx map.firstZeroIdx
    let qwordIdx := startIdx / 64
    let bitIdx := startIdx % 64
    let endQwordIdx := BITMAP_BITS_TO_QWORDS (min endIdx map.length)
    if bitIdx != 0 then
      let maskedQword := map.buffer qwordIdx ||| (1#64 <<< bitIdx - 1#64)
      if maskedQword != BitVec.allOnes 64 then
        let res := qwordIdx * 64 + ctz (~~~maskedQword)
        if res < endIdx then res else map.length
      else bitmap_find_first_clear_loop map endIdx (qwordIdx + 1) (endQwordIdx - (qwordIdx + 1))
    else bitmap_find_first_clear_loop map endIdx qwordIdx (endQwordIdx - qwordIdx)

/-- The `while` loop of `bitmap_find_first_set`, over `n` words from word `i`
on; only the first word is masked, by `startBitIdx`. -/
def bitmap_find_first_set_loop (map : bitmap_t) (endIdx : Nat) : Nat → Nat → Nat → Nat
  | _, _, 0 => map.length
  | i, startBitIdx, n + 1 =>
    let qword := map.buffer i
    let qword := if startBitIdx != 0 then qword &&& ~~~(1#64 <<< startBitIdx - 1#64) else qword
    if qword != 0#64 then
      let res := i * 64 + ctz qword
      if res < endIdx then res else map.length
    else bitmap_find_first_set_loop map endIdx (i + 1) 0 n

def bitmap_find_first_set (map : bitmap_t) (startIdx endIdx : Nat) : Nat :=
  if startIdx ≥ map.length then map.length
  else
    let endQwordIdx := BITMAP_BITS_TO_QWORDS (min endIdx map.length)
    bitmap_find_first_set_loop map endIdx (startIdx / 64) (startIdx % 64) (endQwordIdx - startIdx / 64)

/-- The `while` loop of `bitmap_find_clear_region_and_set`, for at most `fuel`
rounds; `none` when it is still running then. `maxIdx - length` and
`idx + length` wrap as in the source. -/
def bitmap_find_clear_region_loop (map : bitmap_t) (maxIdx length alignment : Nat) :
    Nat → Nat → Option (bitmap_t × Nat)
  | 0, _ => none
  | fuel + 1, idx =>
    if idx ≤ (maxIdx + 2 ^ 64 - length) % 2 ^ 64 then
      let stop := (idx + length) % 2 ^ 64
      let firstSet := bitmap_find_first_set map idx stop
      if firstSet ≥ stop then some (bitmap_set_range map idx stop, idx)
      else bitmap_find_clear_region_loop map maxIdx length alignment fuel
        (ROUND_UP ((firstSet + 1) % 2 ^ 64) alignment)
    else some (map, map.length)

/-- The loop is a function of `idx`, and every `idx` after the first is
`ROUND_UP` of one of the `map.length + 1` values of `firstSet + 1`: after
`map.length + 3` rounds some `idx` has come twice and it never ends. -/
def bitmap_find_clear_region_and_set (map : bitmap_t) (minIdx maxIdx length alignment : Nat) :
    Option (bitmap_t × Nat) :=
  if length = 0 ∨ minIdx ≥ maxIdx ∨ maxIdx > map.length then some (map, map.length)
  else
    let alignment := if alignment = 0 then 1 else alignment
    bitmap_find_clear_region_loop map maxIdx length alignment (map.length + 3)
      (ROUND_UP (max minIdx map.firstZeroIdx) alignment)

/-! ## Words -/

theorem getLsbD_lowMask {n : Nat} (hn : n < 64) (i : Nat) : (1#64 <<< n - 1#64).getLsbD i = decide (i < n) := by
  have hp : 2 ^ n < 2 ^ 64 := Nat.pow_lt_pow_right (by decide) hn
  have h1 : 1 ≤ 2 ^ n := Nat.one_le_two_pow
  have ht : (1#64 <<< n - 1#64).toNat = 2 ^ n - 1 := by
    have hs : (1#64 <<< n).toNat = 2 ^ n := by
      rw [toNat_shiftLeft, Nat.shiftLeft_eq, show (1#64).toNat = 1 from rfl, Nat.one_mul, Nat.mod_eq_of_lt hp]
    rw [toNat_sub, hs]
    simp only [toNat_ofNat]
    omega
  rw [BitVec.getLsbD, ht, Nat.testBit_two_pow_sub_one]

theorem getLsbD_oneBit {n : Nat} (hn : n < 64) (i : Nat) : (1#64 <<< n).getLsbD i = decide (i = n) := by
  rw [getLsbD_shiftLeft, getLsbD_one]
  rcases Nat.lt_trichotomy i n with h | h | h
  · simp [h, Nat.ne_of_lt h]
  · simp [h, hn]
  · simp [Nat.ne_of_gt h]
    omega

theorem word_ne_zero_iff (w : BitVec 64) : w ≠ 0#64 ↔ ∃ i < 64, w.getLsbD i = true := by
  constructor
  · intro h
    by_contra hn
    push Not at hn
    refine h (eq_of_getLsbD_eq fun i hi => ?_)
    simpa using hn i hi
  · rintro ⟨i, -, hi⟩ rfl
    simp at hi

/-- `ctz` of a word that is not zero is its lowest set bit. -/
theorem ctz_spec {w : BitVec 64} (h : w ≠ 0#64) :
    ctz w < 64 ∧ w.getLsbD (ctz w) = true ∧ ∀ i < ctz w, w.getLsbD i = false := by
  unfold ctz
  cases hf : (range 64).find? fun i => w.getLsbD i with
  | none =>
    obtain ⟨i, hi, hb⟩ := (word_ne_zero_iff w).1 h
    simp only [find?_eq_none, mem_range] at hf
    exact absurd hb (hf i hi)
  | some r =>
    rw [find?_range_eq_some] at hf
    exact ⟨by simpa using hf.2.1, hf.1, fun i hi => by simpa using hf.2.2 i hi⟩

/-! ## What the functions do to the bits -/

namespace bitmap_t

theorem bit_setWord (map : bitmap_t) (k : Nat) (w : BitVec 64) (i : Nat) :
    (map.setWord k w).bit i = if i / 64 = k then w.getLsbD (i % 64) else map.bit i := by
  simp only [bit, setWord, Function.update_apply]
  split <;> rfl

theorem bit_fill_words (map : bitmap_t) (first last : Nat) (w : BitVec 64) (i : Nat) :
    (bitmap_fill_words map first last w).bit i =
      if first < i / 64 ∧ i / 64 < last then w.getLsbD (i % 64) else map.bit i := by
  simp only [bit, bitmap_fill_words]
  split <;> rfl

end bitmap_t

open bitmap_t

theorem is_set_eq (map : bitmap_t) (i : Nat) : bitmap_is_set map i = (decide (i < map.length) && map.bit i) := by
  unfold bitmap_is_set
  by_cases hl : i < map.length
  · rw [if_neg (by omega)]
    have hm : i % 64 < 64 := Nat.mod_lt _ (by decide)
    rw [Bool.eq_iff_iff, bne_iff_ne, word_ne_zero_iff]
    simp only [getLsbD_and, getLsbD_oneBit hm, Bool.and_eq_true, decide_eq_true_eq, hl,
      decide_true, true_and]
    constructor
    · rintro ⟨k, -, hk, rfl⟩
      exact hk
    · exact fun h => ⟨_, hm, h, rfl⟩
  · rw [if_pos (by omega)]
    simp [hl]

/-- An operation on one bit acts as `g` on that bit and on no other. -/
theorem bit_oneWord (map : bitmap_t) {f : BitVec 64 → BitVec 64 → BitVec 64} {g : Bool → Bool → Bool}
    (hf : ∀ w m, ∀ j < 64, (f w m).getLsbD j = g (m.getLsbD j) (w.getLsbD j)) (hg : ∀ c, g false c = c) (k i : Nat) :
    (map.setWord (k / 64) (f (map.buffer (k / 64)) (1#64 <<< (k % 64)))).bit i = g (decide (i = k)) (map.bit i) := by
  rw [bit_setWord]
  split
  · rename_i hw
    rw [hf _ _ _ (Nat.mod_lt _ (by decide)), getLsbD_oneBit (Nat.mod_lt _ (by decide)), bit, hw]
    congr 1
    rw [decide_eq_decide]
    omega
  · rename_i hw
    rw [decide_eq_false fun e => hw (by rw [e]), hg]

theorem bit_set (map : bitmap_t) (k i : Nat) :
    (bitmap_set map k).bit i = (decide (i = k ∧ k < map.length) || map.bit i) := by
  unfold bitmap_set
  split
  · rw [decide_eq_false (by omega), Bool.false_or]
  · rename_i h
    rw [bit_oneWord map (g := or) (fun w m j _ => by rw [getLsbD_or, Bool.or_comm]) Bool.false_or]
    simp [Nat.lt_of_not_ge h]

theorem bit_clear (map : bitmap_t) (k i : Nat) :
    (bitmap_clear map k).bit i = (!decide (i = k ∧ k < map.length) && map.bit i) := by
  unfold bitmap_clear
  split
  · rw [decide_eq_false (by omega), Bool.not_false, Bool.true_and]
  · rename_i h
    show (map.setWord _ _).bit i = _
    rw [bit_oneWord map (f := (· &&& ~~~ ·)) (g := fun m c => !m && c)
      (fun w m j hj => by rw [getLsbD_and, getLsbD_not, decide_eq_true hj, Bool.true_and, Bool.and_comm]) fun c => rfl]
    simp [Nat.lt_of_not_ge h]

/-- The bits a range operation touches: those of `[low, high)`, if the range
is not empty and ends inside the bitmap. -/
def inRange (map : bitmap_t) (low high i : Nat) : Bool := decide (low ≤ i ∧ i < high ∧ high ≤ map.length)

variable {i k maxIdx length alignment : Nat} {map : bitmap_t}

theorem getLsbD_firstMask {a : Nat} (hi : i < 64) : (BitVec.allOnes 64 <<< a).getLsbD i = decide (a ≤ i) := by
  rw [getLsbD_shiftLeft, getLsbD_allOnes, Bool.eq_iff_iff]
  simp only [Bool.and_eq_true, decide_eq_true_eq, Bool.not_eq_true', decide_eq_false_iff_not]
  omega

theorem getLsbD_lastMask {b : Nat} (hb : b < 64) : (BitVec.allOnes 64 >>> (63 - b)).getLsbD i = decide (i ≤ b) := by
  rw [getLsbD_ushiftRight, getLsbD_allOnes, decide_eq_decide]
  omega

/-- The words of a range: `f` with the masks of its two ends, `fill` between them. -/
def rangeWords (f : BitVec 64 → BitVec 64 → BitVec 64) (fill : BitVec 64) (map : bitmap_t) (low high : Nat) :
    bitmap_t :=
  let firstMask := BitVec.allOnes 64 <<< (low % 64)
  let lastMask := BitVec.allOnes 64 >>> (63 - (high - 1) % 64)
  if low / 64 = (high - 1) / 64 then map.setWord (low / 64) (f (map.buffer (low / 64)) (firstMask &&& lastMask))
  else
    let map := map.setWord (low / 64) (f (map.buffer (low / 64)) firstMask)
    let map := bitmap_fill_words map (low / 64) ((high - 1) / 64) fill
    map.setWord ((high - 1) / 64) (f (map.buffer ((high - 1) / 64)) lastMask)

section
variable (map : bitmap_t)

/-- A range operation acts as `g` on the bits of the range and on no other. -/
theorem bit_rangeWords {f : BitVec 64 → BitVec 64 → BitVec 64} {fill : BitVec 64} {g : Bool → Bool → Bool}
    (hf : ∀ w m, ∀ j < 64, (f w m).getLsbD j = g (m.getLsbD j) (w.getLsbD j))
    (hfill : ∀ c, ∀ j < 64, fill.getLsbD j = g true c) (hg : ∀ c, g false c = c) {low high : Nat}
    (h : low < high) (i : Nat) :
    (rangeWords f fill map low high).bit i = g (decide (low ≤ i ∧ i < high)) (map.bit i) := by
  have hi : i % 64 < 64 := Nat.mod_lt _ (by decide)
  have hh : (high - 1) % 64 < 64 := Nat.mod_lt _ (by decide)
  have hword : ∀ w m : BitVec 64, w = map.buffer (i / 64) → m.getLsbD (i % 64) = decide (low ≤ i ∧ i < high) →
      (f w m).getLsbD (i % 64) = g (decide (low ≤ i ∧ i < high)) (map.bit i) := by
    rintro w m rfl hm
    rw [hf _ _ _ hi, hm, bit]
  have hout : ¬(low ≤ i ∧ i < high) → map.bit i = g (decide (low ≤ i ∧ i < high)) (map.bit i) := by
    intro hn
    rw [decide_eq_false hn, hg]
  unfold rangeWords
  split
  · rw [bit_setWord]
    split
    · rename_i hw
      refine hword _ _ (by rw [hw]) ?_
      rw [getLsbD_and, getLsbD_firstMask hi, getLsbD_lastMask hh, ← Bool.decide_and, decide_eq_decide]
      omega
    · exact hout (by omega)
  · rename_i hne
    rw [bit_setWord]
    split
    · rename_i hw
      refine hword _ _ (by simp [bitmap_fill_words, setWord, Ne.symm hne, hw]) ?_
      rw [getLsbD_lastMask hh, decide_eq_decide]
      omega
    · rw [bit_fill_words]
      split
      · rw [decide_eq_true (by omega), ← hfill _ _ hi]
      · rw [bit_setWord]
        split
        · rename_i hw
          refine hword _ _ (by rw [hw]) ?_
          rw [getLsbD_firstMask hi, decide_eq_decide]
          omega
        · exact hout (by omega)

theorem rangeWords_fields (f : BitVec 64 → BitVec 64 → BitVec 64) (fill : BitVec 64) (low high : Nat) :
    (rangeWords f fill map low high).length = map.length ∧
      (rangeWords f fill map low high).firstZeroIdx = map.firstZeroIdx := by
  unfold rangeWords
  split <;> exact ⟨rfl, rfl⟩

theorem set_range_eq (low high : Nat) : bitmap_set_range map low high =
    if low ≥ high ∨ high > map.length then map else rangeWords (· ||| ·) (BitVec.allOnes 64) map low high := rfl

theorem clear_range_eq (low high : Nat) : bitmap_clear_range map low high =
    if low ≥ high ∨ high > map.length then map
    else rangeWords (· &&& ~~~ ·) 0#64 (if low < map.firstZeroIdx then { map with firstZeroIdx := low } else map)
      low high := rfl

theorem bit_set_range (low high i : Nat) :
    (bitmap_set_range map low high).bit i = (inRange map low high i || map.bit i) := by
  rw [set_range_eq, inRange]
  split
  · rw [decide_eq_false (by omega), Bool.false_or]
  · rw [bit_rangeWords map (g := or) (fun w m j _ => by rw [getLsbD_or, Bool.or_comm])
      (fun c j hj => by rw [getLsbD_allOnes, decide_eq_true hj]; rfl) Bool.false_or (by omega)]
    congr 1
    rw [decide_eq_decide]
    omega

theorem bit_clear_range (low high i : Nat) :
    (bitmap_clear_range map low high).bit i = (!inRange map low high i && map.bit i) := by
  rw [clear_range_eq, inRange]
  split
  · rw [decide_eq_false (by omega), Bool.not_false, Bool.true_and]
  · -- Moving `firstZeroIdx` down changes no bit.
    have hbit : (if low < map.firstZeroIdx then { map with firstZeroIdx := low } else map).bit i = map.bit i := by
      split <;> rfl
    rw [bit_rangeWords _ (g := fun m c => !m && c)
      (fun w m j hj => by rw [getLsbD_and, getLsbD_not, decide_eq_true hj, Bool.true_and, Bool.and_comm])
      (fun c j _ => getLsbD_zero) (fun c => rfl) (by omega), hbit]
    congr 2
    rw [decide_eq_decide]
    omega

@[simp] theorem length_set_range (low high : Nat) : (bitmap_set_range map low high).length = map.length := by
  rw [set_range_eq]
  split
  · rfl
  · exact (rangeWords_fields _ _ _ _ _).1

@[simp] theorem length_clear_range (low high : Nat) : (bitmap_clear_range map low high).length = map.length := by
  rw [clear_range_eq]
  split
  · rfl
  · rw [(rangeWords_fields _ _ _ _ _).1]
    split <;> rfl

@[simp] theorem firstZeroIdx_set_range (low high : Nat) :
    (bitmap_set_range map low high).firstZeroIdx = map.firstZeroIdx := by
  rw [set_range_eq]
  split
  · rfl
  · exact (rangeWords_fields _ _ _ _ _).2

theorem firstZeroIdx_clear_range (low high : Nat) : (bitmap_clear_range map low high).firstZeroIdx =
    if low < high ∧ high ≤ map.length then min low map.firstZeroIdx else map.firstZeroIdx := by
  rw [clear_range_eq]
  by_cases h : low ≥ high ∨ high > map.length
  · rw [if_pos h, if_neg (by omega)]
  · rw [if_neg h, (rangeWords_fields _ _ _ _ _).2, if_pos (show low < high ∧ high ≤ map.length by omega)]
    split
    · exact (Nat.min_eq_left (Nat.le_of_lt ‹_›)).symm
    · exact (Nat.min_eq_right (Nat.le_of_not_lt ‹_›)).symm

end

/-- The bits that `BITMAP_CREATE_ONE` sets are those of the first word. -/
theorem bit_create_one (bits i : Nat) : (BITMAP_CREATE_ONE bits).bit i = decide (i < 64) := by
  simp only [bit, BITMAP_CREATE_ONE]
  have hmod : i % 64 < 64 := Nat.mod_lt _ (by decide)
  by_cases h : i < 64
  · rw [if_pos (Nat.div_eq_of_lt h), getLsbD_allOnes, decide_eq_true hmod, decide_eq_true h]
  · rw [if_neg (by omega), getLsbD_zero, decide_eq_false h]

@[simp] theorem length_clear (map : bitmap_t) (k : Nat) : (bitmap_clear map k).length = map.length := by
  unfold bitmap_clear
  split <;> rfl

@[simp] theorem length_set (map : bitmap_t) (k : Nat) : (bitmap_set map k).length = map.length := by
  unfold bitmap_set
  split <;> rfl

@[simp] theorem firstZeroIdx_set (map : bitmap_t) (k : Nat) : (bitmap_set map k).firstZeroIdx = map.firstZeroIdx := by
  unfold bitmap_set
  split <;> rfl

theorem firstZeroIdx_clear (h : map.firstZeroIdx = 0) (k : Nat) : (bitmap_clear map k).firstZeroIdx = 0 := by
  unfold bitmap_clear
  split
  · exact h
  · simp [setWord, h]

theorem buffer_clear_of_ne (map : bitmap_t) {q : Nat} (h : q ≠ k / 64) : (bitmap_clear map k).buffer q = map.buffer q := by
  unfold bitmap_clear
  split
  · rfl
  · exact Function.update_of_ne h _ _

theorem bit_word (map : bitmap_t) (q : Nat) (hk : k < 64) : map.bit (q * 64 + k) = (map.buffer q).getLsbD k := by
  rw [bit, show (q * 64 + k) / 64 = q by omega, show (q * 64 + k) % 64 = k by omega]

theorem is_empty_iff (map : bitmap_t) : bitmap_is_empty map = true ↔ ∀ i < map.length, map.bit i = false := by
  have hr : map.length % 64 < 64 := Nat.mod_lt _ (by decide)
  unfold bitmap_is_empty
  dsimp only
  split
  · rename_i hany
    obtain ⟨q, hq, hw⟩ := any_eq_true.1 hany
    obtain ⟨k, hk, hb⟩ := (word_ne_zero_iff _).1 (bne_iff_ne.1 hw)
    rw [mem_range] at hq
    refine iff_of_false nofun fun h => ?_
    rw [← bit_word map q hk, h _ (by omega)] at hb
    cases hb
  rename_i hfull
  simp only [Bool.and_eq_true, bne_iff_ne]
  split
  · rename_i hlast
    obtain ⟨k, -, hb⟩ := (word_ne_zero_iff _).1 hlast.2
    rw [getLsbD_and, getLsbD_lowMask hr, Bool.and_eq_true, decide_eq_true_eq] at hb
    refine iff_of_false nofun fun h => ?_
    rw [← bit_word map _ (by omega), h _ (by omega)] at hb
    cases hb.1
  · rename_i hlast
    refine iff_of_true rfl fun i hi => Bool.eq_false_iff.2 fun hb => ?_
    have hmod : i % 64 < 64 := Nat.mod_lt _ (by decide)
    rcases Nat.lt_or_ge (i / 64) (map.length / 64) with hq | hq
    · exact hfull (any_eq_true.2 ⟨_, mem_range.2 hq, bne_iff_ne.2 ((word_ne_zero_iff _).2 ⟨_, hmod, hb⟩)⟩)
    · have hword : i / 64 = map.length / 64 := by omega
      refine hlast ⟨by omega, (word_ne_zero_iff _).2 ⟨_, hmod, ?_⟩⟩
      rw [getLsbD_and, getLsbD_lowMask hr, ← hword, Bool.and_eq_true, decide_eq_true_eq]
      exact ⟨hb, by omega⟩

/-! ## Searches -/

/-- `r` is the first index from `lo` on whose bit is `b`, or `map.length` if
there is none below `stop` in the words that are scanned (those before `hi`). -/
def Found (map : bitmap_t) (b : Bool) (lo hi stop r : Nat) : Prop :=
  (lo ≤ r ∧ r < stop ∧ r < hi ∧ map.bit r = b ∧ ∀ j, lo ≤ j → j < r → map.bit j = !b) ∨
    (r = map.length ∧ ∀ j, lo ≤ j → j < hi → j < stop → map.bit j = !b)

theorem Found.before {b : Bool} {lo lo' hi stop r : Nat} (h : Found map b lo hi stop r) (hlo : lo' ≤ lo)
    (hskip : ∀ j, lo' ≤ j → j < lo → j < stop → map.bit j = !b) : Found map b lo' hi stop r := by
  rcases h with ⟨h1, h2, h3, h4, h5⟩ | ⟨h1, h2⟩
  · refine .inl ⟨by omega, h2, h3, h4, fun j hj hr => ?_⟩
    rcases Nat.lt_or_ge j lo with hl | hl
    · exact hskip j hj hl (by omega)
    · exact h5 j hl hr
  · refine .inr ⟨h1, fun j hj hh hs => ?_⟩
    rcases Nat.lt_or_ge j lo with hl | hl
    · exact hskip j hj hl hs
    · exact h2 j hl hh hs

theorem Found.widen {b : Bool} {lo lo' hi stop r : Nat} (h : Found map b lo hi stop r) (hhi : stop ≤ hi) (hlo : lo' ≤ lo)
    (hskip : ∀ j, lo' ≤ j → j < lo → j < stop → map.bit j = !b) : Found map b lo' stop stop r :=
  (h.before hlo hskip).imp (fun ⟨h1, h2, _, h⟩ => ⟨h1, h2, h2, h⟩)
    fun h => ⟨h.1, fun j hj hs _ => h.2 j hj (by omega) hs⟩

/-- One word of a search, and the words after it. The bits of `q` are those of
word `i` from `k` on that are `b`. -/
theorem Found.word {b : Bool} {q : BitVec 64} {stop hi r : Nat} (hk : k < 64) (hhi : (i + 1) * 64 ≤ hi)
    (hbit : ∀ j < 64, q.getLsbD j = (decide (k ≤ j) && (map.buffer i).getLsbD j == b))
    (hnext : Found map b ((i + 1) * 64) hi stop r) :
    Found map b (i * 64 + k) hi stop
      (if q != 0#64 then if i * 64 + ctz q < stop then i * 64 + ctz q else map.length else r) := by
  have hword : ∀ j, i * 64 + k ≤ j → j < (i + 1) * 64 → q.getLsbD (j % 64) = false → map.bit j = !b := by
    intro j h1 h2 hq
    rw [hbit _ (Nat.mod_lt _ (by decide)), decide_eq_true (by omega), Bool.true_and, beq_eq_false_iff_ne] at hq
    rw [bit, show j / 64 = i by omega]
    exact Bool.eq_not.2 hq
  by_cases hq : q = 0#64
  · rw [if_neg (by simpa using hq)]
    exact hnext.before (by omega) fun j h1 h2 _ => hword j h1 h2 (by simp [hq])
  · rw [if_pos (by simpa using hq)]
    obtain ⟨h1, h2, h3⟩ := ctz_spec hq
    rw [hbit _ h1, Bool.and_eq_true, decide_eq_true_eq, beq_iff_eq] at h2
    have hlow : ∀ j, i * 64 + k ≤ j → j < i * 64 + ctz q → map.bit j = !b :=
      fun j hj hc => hword j hj (by omega) (h3 _ (by omega))
    split
    · refine .inl ⟨by omega, ‹_›, by omega, ?_, hlow⟩
      rw [bit_word map i h1]
      exact h2.2
    · exact .inr ⟨rfl, fun j hj _ hs => hlow j hj (by omega)⟩

theorem find_first_set_loop_found (map : bitmap_t) (stop : Nat) (n : Nat) :
    ∀ i k, k < 64 →
      Found map true (i * 64 + k) ((i + n) * 64) stop (bitmap_find_first_set_loop map stop i k n) := by
  induction n with
  | zero =>
    intro i k hk
    exact .inr ⟨rfl, fun j h1 h2 => by omega⟩
  | succ n ih =>
    intro i k hk
    refine Found.word hk (by omega) (fun j hj => ?_) ?_
    · -- The masked word has exactly the bits of the word from `k` on.
      by_cases h0 : k = 0
      · simp [h0]
      · rw [if_pos (by simpa using h0), getLsbD_and, getLsbD_not, getLsbD_lowMask hk, decide_eq_true hj,
          Bool.true_and, Bool.and_comm, ← decide_not, beq_true]
        congr 1
        rw [decide_eq_decide]
        omega
    · have := ih (i + 1) 0 (by decide)
      rwa [Nat.add_zero, show i + 1 + n = i + (n + 1) by omega] at this

/-- The first set bit of `[startIdx, endIdx)`, or `map.length`. -/
theorem find_first_set_found (map : bitmap_t) (startIdx : Nat) {endIdx : Nat} (h : endIdx ≤ map.length) :
    Found map true startIdx endIdx endIdx (bitmap_find_first_set map startIdx endIdx) := by
  unfold bitmap_find_first_set
  split
  · exact .inr ⟨rfl, fun j h1 h2 => by omega⟩
  · have hf := find_first_set_loop_found map endIdx
      (BITMAP_BITS_TO_QWORDS (min endIdx map.length) - startIdx / 64) (startIdx / 64) (startIdx % 64)
      (Nat.mod_lt _ (by decide))
    rw [show startIdx / 64 * 64 + startIdx % 64 = startIdx by omega] at hf
    refine hf.widen ?_ (Nat.le_refl _) fun j h1 h2 => by omega
    unfold BITMAP_BITS_TO_QWORDS
    omega

theorem bne_ones (w : BitVec 64) : (w != BitVec.allOnes 64) = (~~~w != 0#64) := by
  rw [Bool.eq_iff_iff, bne_iff_ne, bne_iff_ne, ne_eq, ne_eq, not_eq_comm, not_zero, eq_comm]

theorem find_first_clear_loop_found (map : bitmap_t) (stop : Nat) (n : Nat) :
    ∀ i, Found map false (i * 64) ((i + n) * 64) stop (bitmap_find_first_clear_loop map stop i n) := by
  induction n with
  | zero =>
    intro i
    exact .inr ⟨rfl, fun j h1 h2 => by omega⟩
  | succ n ih =>
    intro i
    have hnext := ih (i + 1)
    rw [show i + 1 + n = i + (n + 1) by omega] at hnext
    rw [bitmap_find_first_clear_loop, bne_ones, ← Nat.add_zero (i * 64)]
    refine Found.word (by decide) (by omega) (fun j hj => ?_) hnext
    rw [getLsbD_not, decide_eq_true hj]
    simp

/-- The first clear bit of `[startIdx, endIdx)`, or `map.length`, when the bits
below `firstZeroIdx` are set. -/
theorem find_first_clear_found (map : bitmap_t) (startIdx : Nat) {endIdx : Nat} (h : endIdx ≤ map.length)
    (hhint : ∀ j < map.length, j < map.firstZeroIdx → map.bit j = true) :
    Found map false startIdx endIdx endIdx (bitmap_find_first_clear map startIdx endIdx) := by
  unfold bitmap_find_first_clear
  split
  · exact .inr ⟨rfl, fun j _ h2 _ => hhint j (by omega) (by omega)⟩
  · have hskip : ∀ j, startIdx ≤ j → j < max startIdx map.firstZeroIdx → j < endIdx → map.bit j = !false :=
      fun j h1 h2 h3 => hhint j (by omega) (by omega)
    have hstop : endIdx ≤ BITMAP_BITS_TO_QWORDS (min endIdx map.length) * 64 := by
      unfold BITMAP_BITS_TO_QWORDS
      omega
    have hle : startIdx ≤ max startIdx map.firstZeroIdx := Nat.le_max_left _ _
    simp only
    generalize max startIdx map.firstZeroIdx = start at hskip hle
    have hk := Nat.mod_lt start (by decide : 0 < 64)
    have hs : start / 64 * 64 + start % 64 = start := by omega
    generalize start / 64 = q, start % 64 = k at hk hs
    subst hs
    split
    · rw [bne_ones]
      refine Found.widen (Found.word hk (by omega) (fun j hj => ?_) (find_first_clear_loop_found map endIdx _ _))
        (by omega) hle hskip
      rw [getLsbD_not, getLsbD_or, getLsbD_lowMask hk, decide_eq_true hj]
      rcases Nat.lt_or_ge j k with hjk | hjk
      · simp [hjk, Nat.not_le_of_lt hjk]
      · simp [hjk, Nat.not_lt_of_le hjk]
    · rename_i h0
      obtain rfl : k = 0 := by simpa using h0
      exact (find_first_clear_loop_found map endIdx _ q).widen (by omega) hle hskip

/-- What the search for a clear region returns when the request fits below
`maxIdx`: a region of clear bits below `maxIdx`, which it has set, or
`map.length` and the bitmap unchanged. -/
def RegionFound (map : bitmap_t) (maxIdx length : Nat) (r : bitmap_t × Nat) : Prop :=
  r = (map, map.length) ∨
    (r.1 = bitmap_set_range map r.2 (r.2 + length) ∧ r.2 + length ≤ maxIdx ∧
      ∀ j, r.2 ≤ j → j < r.2 + length → map.bit j = false)

theorem region_loop_found (h0 : 0 < length)
    (hle : length ≤ maxIdx) (hmax : maxIdx ≤ map.length) (h64 : map.length < 2 ^ 64) (fuel : Nat) :
    ∀ idx r, bitmap_find_clear_region_loop map maxIdx length alignment fuel idx = some r →
      RegionFound map maxIdx length r := by
  have hlimit : (maxIdx + 2 ^ 64 - length) % 2 ^ 64 = maxIdx - length := by omega
  induction fuel with
  | zero => intro idx r h; cases h
  | succ fuel ih =>
    intro idx r h
    simp only [bitmap_find_clear_region_loop, hlimit] at h
    split at h
    · rename_i hidx
      have hstop : (idx + length) % 2 ^ 64 = idx + length := Nat.mod_eq_of_lt (by omega)
      rw [hstop] at h
      split at h
      · rename_i hge
        cases h
        refine .inr ⟨rfl, by simp only; omega, fun j hj hj' => ?_⟩
        rcases find_first_set_found map idx (show idx + length ≤ map.length by omega) with h1 | h1
        · omega
        · exact h1.2 j hj hj' hj'
      · exact ih _ r h
    · cases h
      exact .inl rfl

theorem round_up_isLeast {number multiple : Nat} (h0 : 0 < multiple) (h : number + multiple ≤ 2 ^ 64) :
    IsLeast {k | multiple ∣ k ∧ number ≤ k} (ROUND_UP number multiple) := by
  rw [ROUND_UP, Nat.mod_eq_of_lt (by omega)]
  refine ⟨⟨Nat.dvd_mul_left .., ?_⟩, ?_⟩
  · have := Nat.lt_div_mul_add h0 (a := number + multiple - 1)
    omega
  · rintro _ ⟨⟨k, rfl⟩, hk⟩
    rw [Nat.mul_comm multiple]
    refine Nat.mul_le_mul_right _ (Nat.le_of_lt_succ ((Nat.div_lt_iff_lt_mul h0).2 ?_))
    rw [Nat.succ_mul, Nat.mul_comm]
    omega

/-- The aligned regions of `length` clear bits from `minIdx` up to `maxIdx`, by where they start. -/
def clearRegions (map : bitmap_t) (minIdx maxIdx length alignment : Nat) : Set Nat :=
  {idx | alignment ∣ idx ∧ minIdx ≤ idx ∧ idx + length ≤ maxIdx ∧ ∀ j, idx ≤ j → j < idx + length → map.bit j = false}

/-- No region starts before `hi` if there is a set bit in each. -/
theorem clearRegions_round_up {lo hi : Nat} (ha : 0 < alignment) (h64 : hi + alignment ≤ 2 ^ 64) (hlo : lo ≤ hi)
    (hset : ∀ i, lo ≤ i → i < hi → ∃ j, i ≤ j ∧ j < i + length ∧ map.bit j = true) :
    clearRegions map lo maxIdx length alignment = clearRegions map (ROUND_UP hi alignment) maxIdx length alignment := by
  obtain ⟨⟨-, hup⟩, hleast⟩ := round_up_isLeast ha h64
  ext i
  refine ⟨fun ⟨hi, hge, hi'⟩ => ⟨hi, hleast ⟨hi, ?_⟩, hi'⟩, fun ⟨hi, hge, hi'⟩ => ⟨hi, by omega, hi'⟩⟩
  by_contra hlt
  obtain ⟨j, hj, hj', hb⟩ := hset i hge (Nat.not_le.1 hlt)
  rw [hi'.2 j hj hj'] at hb
  cases hb

/-- With room to round up, `idx` rises in every round, past no region. -/
theorem region_loop_least (h0 : 0 < length)
    (hle : length ≤ maxIdx) (hmax : maxIdx ≤ map.length) (ha : 0 < alignment)
    (h64 : map.length + alignment ≤ 2 ^ 64) (fuel : Nat) :
    ∀ idx, alignment ∣ idx → maxIdx < idx + fuel →
      ∃ r, bitmap_find_clear_region_loop map maxIdx length alignment (fuel + 1) idx = some r ∧
        (IsLeast (clearRegions map idx maxIdx length alignment) r.2 ∧ r.1 = bitmap_set_range map r.2 (r.2 + length) ∨
          (∀ i, i ∉ clearRegions map idx maxIdx length alignment) ∧ r = (map, map.length)) := by
  have hlimit : (maxIdx + 2 ^ 64 - length) % 2 ^ 64 = maxIdx - length := by omega
  induction fuel with
  | zero =>
    intro idx _ h
    simp only [bitmap_find_clear_region_loop, hlimit]
    rw [if_neg (by omega)]
    exact ⟨_, rfl, .inr ⟨fun i ⟨_, hi, hstop, _⟩ => by omega, rfl⟩⟩
  | succ fuel ih =>
    intro idx hdvd h
    rw [bitmap_find_clear_region_loop]
    simp only [hlimit]
    split
    · have hstop : (idx + length) % 2 ^ 64 = idx + length := Nat.mod_eq_of_lt (by omega)
      rw [hstop]
      rcases find_first_set_found map idx (show idx + length ≤ map.length by omega) with h1 | ⟨h1, h2⟩
      · rw [if_neg (by omega), Nat.mod_eq_of_lt (by omega)]
        generalize bitmap_find_first_set map idx (idx + length) = firstSet at h1
        rw [clearRegions_round_up ha (by omega) (by omega : idx ≤ firstSet + 1) fun i hi hi' =>
          ⟨firstSet, by omega, by omega, h1.2.2.2.1⟩]
        have hup := (round_up_isLeast ha (show firstSet + 1 + alignment ≤ 2 ^ 64 by omega)).1
        exact ih _ hup.1 (by have := hup.2; omega)
      · rw [if_pos (by omega)]
        refine ⟨_, rfl, .inl ⟨⟨⟨hdvd, le_rfl, ?_, fun j hj hj' => h2 j hj hj' hj'⟩, fun i hi => hi.2.1⟩, rfl⟩⟩
        simp only
        omega
    · exact ⟨_, rfl, .inr ⟨fun i ⟨_, hi, hstop, _⟩ => by omega, rfl⟩⟩

/-- The search ends when the request fits below `maxIdx` and the alignment
leaves room to round up. -/
theorem find_clear_region_returns {minIdx : Nat} (hle : length ≤ maxIdx)
    (ha : 0 < alignment) (h64 : map.length + alignment ≤ 2 ^ 64) :
    ∃ r, bitmap_find_clear_region_and_set map minIdx maxIdx length alignment = some r := by
  unfold bitmap_find_clear_region_and_set
  split
  · exact ⟨_, rfl⟩
  · simp only [if_neg (Nat.ne_of_gt ha)]
    obtain ⟨r, hr, -⟩ := region_loop_least (by omega) hle (by omega) ha h64 (map.length + 2) _
      (Nat.dvd_mul_left ..) (by omega)
    exact ⟨r, hr⟩

theorem find_clear_region_found {minIdx : Nat}
    (hle : length ≤ maxIdx) (h64 : map.length < 2 ^ 64) {r : bitmap_t × Nat}
    (h : bitmap_find_clear_region_and_set map minIdx maxIdx length alignment = some r) :
    RegionFound map maxIdx length r := by
  unfold bitmap_find_clear_region_and_set at h
  split at h
  · cases h
    exact .inl rfl
  · exact region_loop_found (by omega) hle (by omega) h64 _ _ _ h

theorem find_first_set_one (map : bitmap_t) (hi : i < map.length) :
    bitmap_find_first_set map i (i + 1) ≥ i + 1 ↔ map.bit i = false := by
  rcases find_first_set_found map i (show i + 1 ≤ map.length from hi) with ⟨h1, h2, -, h3, -⟩ | ⟨h1, h2⟩
  · have heq : bitmap_find_first_set map i (i + 1) = i := by omega
    rw [heq] at h3
    rw [heq, h3]
    simp
  · rw [h1, h2 i (Nat.le_refl _) (by omega) (by omega)]
    exact iff_of_true hi rfl

/-- A request for the bit `p`: it is served when bit 0, the only other multiple
of `p` below, is taken. -/
theorem find_clear_region_at {p : Nat} (h0 : map.firstZeroIdx = 0) (hp : 0 < p) (hlt : p < map.length)
    (h64 : map.length ≤ 2 ^ 63) (hclear : map.bit p = false) :
    bitmap_find_clear_region_and_set map 0 (p + 1) 1 p =
      if map.bit 0 = false then some (bitmap_set_range map 0 1, 0) else some (bitmap_set_range map p (p + 1), p) := by
  have hlimit : (p + 1 + 2 ^ 64 - 1) % 2 ^ 64 = p := by omega
  have hstart : ROUND_UP (max 0 map.firstZeroIdx) p = 0 := by
    rw [h0, ROUND_UP, Nat.max_self, Nat.zero_add, Nat.mod_eq_of_lt (by omega), Nat.div_eq_of_lt (by omega), Nat.zero_mul]
  have hnext : ROUND_UP 1 p = p := by
    rw [ROUND_UP, Nat.add_sub_cancel_left, Nat.mod_eq_of_lt (by omega), Nat.div_self hp, Nat.one_mul]
  unfold bitmap_find_clear_region_and_set
  rw [if_neg (by omega)]
  simp only [if_neg (Nat.ne_of_gt hp), hstart, bitmap_find_clear_region_loop, hlimit]
  rw [if_pos (Nat.zero_le p)]
  have hone : (0 + 1) % 2 ^ 64 = 0 + 1 := by decide
  have hstop : (p + 1) % 2 ^ 64 = p + 1 := Nat.mod_eq_of_lt (by omega)
  simp only [hone, find_first_set_one map (show 0 < map.length by omega)]
  split
  · rfl
  · rename_i hset
    have hfirst : bitmap_find_first_set map 0 (0 + 1) = 0 := by
      have := mt (find_first_set_one map (show 0 < map.length by omega)).1 hset
      omega
    rw [hfirst, hone, Nat.zero_add, hnext, if_pos (Nat.le_refl p), hstop,
      if_pos ((find_first_set_one map hlt).2 hclear)]

end Patchwork
