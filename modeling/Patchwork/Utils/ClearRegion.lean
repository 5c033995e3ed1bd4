import Patchwork.Utils.Bitmap
/-!
# The first clear region

`bitmap_find_clear_region_and_set` returns the first aligned region of clear bits exactly
if one of the following holds. It returns at once, and there is no region. Or the alignment
is at most `2 ^ 63`, and the region fits below `maxIdx`: otherwise the bound of the loop
wraps around, and a region beyond `maxIdx` is taken or the loop goes on for ever. Or the
alignment is larger and only 0 and the alignment itself are multiples of it: a rounding
that wraps then comes back to 0.
-/

namespace Patchwork

variable {map : bitmap_t} {minIdx maxIdx length alignment : Nat}

/-- The search ends, with the first region and exactly its bits set, or with `map.length` and no change if there
is none. -/
def SetsFirst (map : bitmap_t) (minIdx maxIdx length alignment : Nat) : Prop :=
  ∃ map' idx, bitmap_find_clear_region_and_set map minIdx maxIdx length alignment = some (map', idx) ∧
    (IsLeast (clearRegions map minIdx maxIdx length (max alignment 1)) idx ∧
        (∀ j, map'.bit j = (decide (idx ≤ j ∧ j < idx + length) || map.bit j)) ∨
      (∀ i, i ∉ clearRegions map minIdx maxIdx length (max alignment 1)) ∧ idx = map.length ∧ map' = map)

/-- The call returns before its loop. -/
def Early (map : bitmap_t) (minIdx maxIdx length : Nat) : Prop :=
  length = 0 ∨ maxIdx ≤ minIdx ∨ map.length < maxIdx

/-- The alignment is beyond the bound of the loop. The search begins there, or finds a set
bit in the region at 0 from which it gets there, or takes the region at 0. -/
def FarFits (map : bitmap_t) (minIdx maxIdx length alignment : Nat) : Prop :=
  (length ≤ maxIdx ∨ 2 ^ 64 + maxIdx < alignment + length) ∧
    (0 < max minIdx map.firstZeroIdx ∧ max minIdx map.firstZeroIdx + alignment ≤ 2 ^ 64 ∨
      bitmap_find_first_set map 0 length < length ∧ bitmap_find_first_set map 0 length + 1 + alignment ≤ 2 ^ 64 ∨
      length ≤ bitmap_find_first_set map 0 length ∧ minIdx = 0 ∧ length ≤ maxIdx)

def Fits (map : bitmap_t) (minIdx maxIdx length alignment : Nat) : Prop :=
  Early map minIdx maxIdx length ∧
      ((∀ i, i ∉ clearRegions map minIdx maxIdx length (max alignment 1)) ∨
        length = 0 ∧ IsLeast (clearRegions map minIdx maxIdx length (max alignment 1)) map.length) ∨
    ¬ Early map minIdx maxIdx length ∧
      (alignment ≤ 2 ^ 63 ∧ length ≤ maxIdx ∨ 2 ^ 63 < alignment ∧ FarFits map minIdx maxIdx length alignment)

/-! ## Calls that return at once -/

theorem setsFirst_early (h : Early map minIdx maxIdx length) : SetsFirst map minIdx maxIdx length alignment ↔
    (∀ i, i ∉ clearRegions map minIdx maxIdx length (max alignment 1)) ∨
      length = 0 ∧ IsLeast (clearRegions map minIdx maxIdx length (max alignment 1)) map.length := by
  have hcall : bitmap_find_clear_region_and_set map minIdx maxIdx length alignment = some (map, map.length) := if_pos h
  unfold SetsFirst
  rw [hcall]
  constructor
  · rintro ⟨_, _, ⟨⟩, ⟨hleast, hbits⟩ | ⟨hnone, -⟩⟩
    · refine .inr ⟨Nat.eq_zero_of_not_pos fun hpos => ?_, hleast⟩
      -- the first bit of the region is clear, and would have to be set
      have hclear := hleast.1.2.2.2 map.length le_rfl (by omega)
      have hset := hbits map.length
      rw [hclear, decide_eq_true ⟨le_rfl, by omega⟩] at hset
      cases hset
    · exact .inl hnone
  · rintro (hnone | ⟨rfl, hleast⟩)
    · exact ⟨map, map.length, rfl, .inr ⟨hnone, rfl, rfl⟩⟩
    · refine ⟨map, map.length, rfl, .inl ⟨hleast, fun j => ?_⟩⟩
      rw [decide_eq_false (by omega), Bool.false_or]

/-! ## The loop -/

/-- A set bit before `stop`, in a word of the bitmap, or `map.length`. -/
theorem find_first_set_cases (map : bitmap_t) (startIdx stop : Nat) :
    bitmap_find_first_set map startIdx stop < stop ∧ bitmap_find_first_set map startIdx stop < map.length + 64 ∨
      bitmap_find_first_set map startIdx stop = map.length := by
  have hloop : ∀ n i b, (i + n) * 64 < map.length + 64 →
      bitmap_find_first_set_loop map stop i b n < stop ∧ bitmap_find_first_set_loop map stop i b n < map.length + 64 ∨
        bitmap_find_first_set_loop map stop i b n = map.length := by
    intro n
    induction n with
    | zero => exact fun i b _ => .inr rfl
    | succ n ih =>
      intro i b hn
      rw [bitmap_find_first_set_loop]
      dsimp only
      generalize (if (b != 0) = true then _ else map.buffer i) = qword
      split
      · rename_i hne
        split
        · rename_i hlt
          have hctz := (ctz_spec (bne_iff_ne.1 hne)).1
          exact .inl ⟨hlt, by omega⟩
        · exact .inr rfl
      · exact ih (i + 1) 0 (by omega)
  unfold bitmap_find_first_set
  split
  · exact .inr rfl
  · refine hloop _ _ _ ?_
    unfold BITMAP_BITS_TO_QWORDS
    omega

/-- As long as every index that is tried is within the bound, the loop only ends with a
region that it takes. -/
theorem region_loop_takes {P : Nat → Prop} (hP : ∀ idx, P idx → idx ≤ (maxIdx + 2 ^ 64 - length) % 2 ^ 64 ∧
      (bitmap_find_first_set map idx ((idx + length) % 2 ^ 64) < (idx + length) % 2 ^ 64 →
        P (ROUND_UP ((bitmap_find_first_set map idx ((idx + length) % 2 ^ 64) + 1) % 2 ^ 64) alignment)))
    {fuel idx : Nat} {r : bitmap_t × Nat} (h : P idx)
    (hr : bitmap_find_clear_region_loop map maxIdx length alignment fuel idx = some r) :
    P r.2 ∧ (r.2 + length) % 2 ^ 64 ≤ bitmap_find_first_set map r.2 ((r.2 + length) % 2 ^ 64) := by
  induction fuel generalizing idx with
  | zero => cases hr
  | succ fuel ih =>
    obtain ⟨hle, hnext⟩ := hP idx h
    rw [bitmap_find_clear_region_loop, if_pos hle] at hr
    dsimp only at hr
    split at hr
    · rename_i htake
      obtain rfl := Option.some.inj hr
      exact ⟨h, htake⟩
    · rename_i hpass
      exact ih (hnext (Nat.not_le.1 hpass)) hr

theorem bit_set_region {idx : Nat} (h : idx + length ≤ map.length) (j : Nat) :
    (bitmap_set_range map idx (idx + length)).bit j = (decide (idx ≤ j ∧ j < idx + length) || map.bit j) := by
  rw [bit_set_range, inRange]
  congr 1
  rw [decide_eq_decide]
  omega

theorem not_early_iff : ¬ Early map minIdx maxIdx length ↔ 0 < length ∧ minIdx < maxIdx ∧ maxIdx ≤ map.length := by
  unfold Early
  omega

section
variable (hearly : ¬ Early map minIdx maxIdx length)
include hearly

theorem search_eq : bitmap_find_clear_region_and_set map minIdx maxIdx length alignment =
    bitmap_find_clear_region_loop map maxIdx length (max alignment 1) (map.length + 3)
      (ROUND_UP (max minIdx map.firstZeroIdx) (max alignment 1)) := by
  have halign : (if alignment = 0 then 1 else alignment) = max alignment 1 := by split <;> omega
  rw [← halign]
  exact if_neg hearly

/-- A region that does not fit below `maxIdx` does not exist, and only `map.length` is right. -/
theorem not_setsFirst (hlong : maxIdx < length) (h : ∀ r, bitmap_find_clear_region_loop map maxIdx length (max alignment 1)
    (map.length + 3) (ROUND_UP (max minIdx map.firstZeroIdx) (max alignment 1)) = some r → r.2 ≠ map.length) :
    ¬ SetsFirst map minIdx maxIdx length alignment := by
  rintro ⟨map', idx, hcall, ⟨⟨⟨-, -, hstop, -⟩, -⟩, -⟩ | ⟨-, hidx, -⟩⟩
  · omega
  · rw [search_eq hearly] at hcall
    exact h _ hcall hidx

variable (hfirst : map.firstZeroIdx ≤ map.length) (hsize : map.length + length ≤ 2 ^ 62)
include hfirst hsize

theorem not_setsFirst_of_long (hlong : maxIdx < length) (ha : alignment ≤ 2 ^ 63) :
    ¬ SetsFirst map minIdx maxIdx length alignment := by
  obtain ⟨h0, hmin, hmax⟩ := not_early_iff.1 hearly
  refine not_setsFirst hearly hlong fun r hr hidx => ?_
  have hround : ∀ n, ROUND_UP n (max alignment 1) ≤ n + max alignment 1 - 1 := fun n =>
    (Nat.div_mul_le_self _ _).trans (Nat.mod_le _ _)
  have hP := region_loop_takes (P := fun idx => idx ≤ map.length + 63 + max alignment 1) ?_ ?_ hr
  · -- a region that is taken ends in the bitmap
    rcases find_first_set_cases map r.2 ((r.2 + length) % 2 ^ 64) with hcase | hcase <;> omega
  · intro idx hidx
    refine ⟨by omega, fun _ => (hround _).trans ?_⟩
    have hfirst := find_first_set_cases map idx ((idx + length) % 2 ^ 64)
    omega
  · refine (hround _).trans ?_
    omega

variable (hset : ∀ j < map.firstZeroIdx, map.bit j = true)
include hset

theorem setsFirst_of_le (hle : length ≤ maxIdx) (ha : alignment ≤ 2 ^ 63) :
    SetsFirst map minIdx maxIdx length alignment := by
  obtain ⟨h0, hmin, hmax⟩ := not_early_iff.1 hearly
  unfold SetsFirst
  rw [search_eq hearly]
  have ha' : 0 < max alignment 1 ∧ map.length + max alignment 1 ≤ 2 ^ 64 := by omega
  generalize max alignment 1 = a at ha' ⊢
  obtain ⟨r, hr, hcase⟩ := region_loop_least h0 hle hmax ha'.1 ha'.2 (map.length + 2)
    (ROUND_UP (max minIdx map.firstZeroIdx) a) (Nat.dvd_mul_left ..) (by omega)
  rw [← clearRegions_round_up ha'.1 (by omega) (Nat.le_max_left ..) fun i hi hi' =>
    ⟨i, le_rfl, by omega, hset i (by omega)⟩] at hcase
  refine ⟨r.1, r.2, hr, hcase.imp (fun ⟨hl, hmap⟩ => ⟨hl, fun j => ?_⟩) fun ⟨he, hr⟩ => ⟨he, by simp [hr]⟩⟩
  rw [hmap]
  exact bit_set_region (hl.1.2.2.1.trans hmax) j

end

/-! ## Alignments with two multiples -/

theorem round_up_far {n : Nat} (ha : 2 ^ 63 < alignment) (hlt : alignment < 2 ^ 64) (hn : n ≤ 2 ^ 63) :
    ROUND_UP n alignment = if 0 < n ∧ n + alignment ≤ 2 ^ 64 then alignment else 0 := by
  unfold ROUND_UP
  split
  · rw [Nat.mod_eq_of_lt (by omega), Nat.div_eq_of_lt_le (k := 1) (by omega) (by omega), Nat.one_mul]
  · rw [Nat.div_eq_of_lt (by omega), Nat.zero_mul]

section
variable (hearly : ¬ Early map minIdx maxIdx length) (hfirst : map.firstZeroIdx ≤ map.length)
  (hsize : map.length + length ≤ 2 ^ 62) (ha : 2 ^ 63 < alignment) (hlt : alignment < 2 ^ 64)
include hsize ha hlt

theorem far_next (idx : Nat) :
    ROUND_UP ((bitmap_find_first_set map idx ((idx + length) % 2 ^ 64) + 1) % 2 ^ 64) alignment =
      if bitmap_find_first_set map idx ((idx + length) % 2 ^ 64) + 1 + alignment ≤ 2 ^ 64 then alignment else 0 := by
  have hfirst := find_first_set_cases map idx ((idx + length) % 2 ^ 64)
  rw [Nat.mod_eq_of_lt (by omega), round_up_far ha hlt (by omega)]
  simp only [Nat.succ_pos, true_and]

/-- The region at 0 is the only one there may be. -/
theorem far_region (hmax : maxIdx ≤ map.length) (i : Nat) : i ∈ clearRegions map minIdx maxIdx length alignment ↔
    i = 0 ∧ minIdx = 0 ∧ length ≤ maxIdx ∧ ∀ j < length, map.bit j = false := by
  constructor
  · rintro ⟨⟨k, rfl⟩, hmin, hstop, hclear⟩
    obtain rfl : k = 0 := by
      by_contra hk
      have hle := Nat.mul_le_mul_left alignment (Nat.one_le_iff_ne_zero.2 hk)
      omega
    rw [Nat.mul_zero] at hmin hstop hclear ⊢
    refine ⟨rfl, by omega, by omega, fun j hj => hclear j (Nat.zero_le j) (by omega)⟩
  · rintro ⟨rfl, rfl, hle, hclear⟩
    exact ⟨Nat.dvd_zero _, le_rfl, by omega, fun j _ hj => hclear j (by omega)⟩

theorem not_setsFirst_of_near (hearly : ¬ Early map minIdx maxIdx length) (hlong : maxIdx < length)
    (hnear : alignment + length ≤ 2 ^ 64 + maxIdx) : ¬ SetsFirst map minIdx maxIdx length alignment := by
  obtain ⟨h0, hmin, hmax⟩ := not_early_iff.1 hearly
  refine not_setsFirst hearly hlong fun r hr hidx => ?_
  rw [Nat.max_eq_left (by omega : 1 ≤ alignment)] at hr
  have hmultiple : ∀ n, ROUND_UP n alignment = 0 ∨ ROUND_UP n alignment = alignment := by
    intro n
    have hone : (n + alignment - 1) % 2 ^ 64 / alignment ≤ 1 := by
      refine Nat.le_of_lt_succ ((Nat.div_lt_iff_lt_mul (by omega)).2 ?_)
      omega
    rcases Nat.le_one_iff_eq_zero_or_eq_one.1 hone with heq | heq
    · exact .inl (by rw [ROUND_UP, heq, Nat.zero_mul])
    · exact .inr (by rw [ROUND_UP, heq, Nat.one_mul])
  have htaken := (region_loop_takes (P := fun idx => idx = 0 ∨ idx = alignment) (fun idx hidx => ?_) (hmultiple _) hr).1
  · omega
  · exact ⟨by omega, fun _ => hmultiple _⟩

variable (hfar : length ≤ maxIdx ∨ 2 ^ 64 + maxIdx < alignment + length) (hmax : maxIdx ≤ map.length)
include hfar hmax

theorem far_loop_end (fuel : Nat) :
    bitmap_find_clear_region_loop map maxIdx length alignment (fuel + 1) alignment = some (map, map.length) :=
  if_neg (by omega)

theorem far_loop_zero (fuel : Nat) :
    bitmap_find_clear_region_loop map maxIdx length alignment (fuel + 2) 0 =
      if length ≤ bitmap_find_first_set map 0 length then some (bitmap_set_range map 0 length, 0)
      else if bitmap_find_first_set map 0 length + 1 + alignment ≤ 2 ^ 64 then some (map, map.length) else none := by
  have hstop : (0 + length) % 2 ^ 64 = length := by omega
  have hnext := far_next hsize ha hlt 0
  rw [bitmap_find_clear_region_loop, if_pos (Nat.zero_le _)]
  simp only [hstop, ge_iff_le] at hnext ⊢
  split
  · rfl
  · rename_i hpass
    rw [hnext]
    split
    · exact far_loop_end hsize ha hlt hfar hmax fuel
    · rename_i hwrap
      -- back at 0, where nothing has changed
      refine Option.eq_none_iff_forall_ne_some.2 fun r hr => hpass ?_
      have htaken := region_loop_takes (P := fun idx => idx = 0) (fun idx hidx => ?_) rfl hr
      · rw [htaken.1, hstop] at htaken
        exact htaken.2
      · subst hidx
        refine ⟨Nat.zero_le _, fun _ => ?_⟩
        rw [hstop, hnext, if_neg hwrap]

theorem setsFirst_far_iff (hearly : ¬ Early map minIdx maxIdx length) (hfirst : map.firstZeroIdx ≤ map.length)
    (hset : ∀ j < map.firstZeroIdx, map.bit j = true) : SetsFirst map minIdx maxIdx length alignment ↔
      0 < max minIdx map.firstZeroIdx ∧ max minIdx map.firstZeroIdx + alignment ≤ 2 ^ 64 ∨
        bitmap_find_first_set map 0 length < length ∧ bitmap_find_first_set map 0 length + 1 + alignment ≤ 2 ^ 64 ∨
        length ≤ bitmap_find_first_set map 0 length ∧ minIdx = 0 ∧ length ≤ maxIdx := by
  obtain ⟨hpos, hmin, -⟩ := not_early_iff.1 hearly
  have hregion := @far_region map minIdx maxIdx length alignment hsize ha hlt hmax
  unfold SetsFirst
  rw [search_eq hearly, Nat.max_eq_left (by omega : 1 ≤ alignment), round_up_far ha hlt (by omega)]
  by_cases hstart : 0 < max minIdx map.firstZeroIdx ∧ max minIdx map.firstZeroIdx + alignment ≤ 2 ^ 64
  · rw [if_pos hstart, far_loop_end hsize ha hlt hfar hmax]
    refine iff_of_true ⟨map, map.length, rfl, .inr ⟨fun i hi => ?_, rfl, rfl⟩⟩ (.inl hstart)
    -- the search does not begin at 0, since bit 0 is set or `minIdx` is beyond it
    obtain ⟨-, rfl, -, hclear⟩ := (hregion i).1 hi
    have hbit := hset 0 (by omega)
    rw [hclear 0 hpos] at hbit
    cases hbit
  · rw [if_neg hstart, far_loop_zero hsize ha hlt hfar hmax]
    by_cases hz : length ≤ bitmap_find_first_set map 0 length
    · have hlen : length ≤ map.length := by
        rcases find_first_set_cases map 0 length with hcase | hcase <;> omega
      have hclear : ∀ j < length, map.bit j = false := by
        rcases find_first_set_found map 0 hlen with hfound | hfound
        · omega
        · exact fun j hj => hfound.2 j (Nat.zero_le j) hj hj
      rw [if_pos hz]
      constructor
      · rintro ⟨_, _, ⟨⟩, ⟨⟨hmem, -⟩, -⟩ | ⟨-, hidx, -⟩⟩
        · obtain ⟨-, hzero, hle, -⟩ := (hregion 0).1 hmem
          exact .inr (.inr ⟨hz, hzero, hle⟩)
        · omega
      · rintro (hbegin | hpass | ⟨-, hzero, hle⟩)
        · exact absurd hbegin hstart
        · omega
        · refine ⟨_, 0, rfl, .inl ⟨⟨(hregion 0).2 ⟨rfl, hzero, hle, hclear⟩, fun i _ => Nat.zero_le i⟩, fun j => ?_⟩⟩
          have hbit := @bit_set_region map length 0 (by omega) j
          rwa [Nat.zero_add] at hbit ⊢
    · rw [if_neg hz]
      split
      · rename_i hnext
        refine iff_of_true ⟨map, map.length, rfl, .inr ⟨fun i hi => ?_, rfl, rfl⟩⟩ (.inr (.inl ⟨by omega, hnext⟩))
        obtain ⟨-, -, hle, hclear⟩ := (hregion i).1 hi
        rcases find_first_set_found map 0 (hle.trans hmax) with ⟨-, hlt, -, hbit, -⟩ | ⟨hnone, -⟩
        · rw [hclear _ hlt] at hbit
          cases hbit
        · omega
      · rename_i hwrap
        refine iff_of_false (by rintro ⟨_, _, ⟨⟩, _⟩) ?_
        rintro (hbegin | hpass | hfits)
        · exact hstart hbegin
        · exact hwrap hpass.2
        · exact hz hfits.1

end

/-- Bits 0 to 4 are set, and the search is for four bits at a multiple of 4. -/
def lowTaken : bitmap_t := { bitmap_set_range (BITMAP_CREATE_ZERO 128) 0 5 with firstZeroIdx := 2 }

end Patchwork
