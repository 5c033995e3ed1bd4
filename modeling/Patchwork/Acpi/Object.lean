import Patchwork.Lib.Runs
/-!
# AML buffers and strings

`aml/object.c`: a short content is stored in an array inside the object, a longer one is allocated.

Growing inside the array does not zero what an earlier content has left there. Shrinking an allocation
zeroes from the old length on. A `calloc` that fails leaves `NULL` in place of the array.
-/

namespace Patchwork.Aml

open Lib

abbrev AML_SMALL_BUFFER_SIZE : Nat := 32

structure Block where
  size : Nat
  byte : Nat → UInt8

/-- `aml_buffer_t` or `aml_stioring_t`. -/
@[ext]
structure Data where
  /-- The allocation that `content` points to, none if that is the array inside the object.
  There are no bytes at `NULL`, and none in an allocation that was freed. -/
  heap : Option Block
  length : Nat
  small : Block

def Data.content (s : Data) : Block := s.heap.getD s.small

/-! ## The functions

The result is `none` if an access is outside the storage. -/

def memcpy (dst src : Block) (start n : Nat) : Option Block :=
  if n ≤ dst.size ∧ start + n ≤ src.size then
    some { dst with byte := fun i => if i < n then src.byte (start + i) else dst.byte i }
  else none

def memset (dst : Block) (start n : Nat) : Option Block :=
  if start + n ≤ dst.size then
    some { dst with byte := fun i => if start ≤ i ∧ i < start + n then 0 else dst.byte i }
  else none

def calloc (size : Nat) : Block := ⟨size, fun _ => 0⟩

def realloc (old : Block) (size : Nat) (junk : Nat → UInt8) : Block :=
  ⟨size, fun i => if i < old.size then old.byte i else junk i⟩

/-- The array inside the object, with the content as far as it fits. -/
def copyBack (s : Data) (newLength : Nat) : Option Block :=
  match s.heap with
  | none => some s.small
  | some content => memcpy s.small content 0 (min s.length newLength)

/-- The body of both functions, for a content followed by `nul` bytes. The flag is false for `ERR`.
`alloc` is none if there is no memory, and else what is in memory that is not zeroed. -/
def resizeTo (nul copied : Nat) (s : Data) (newLength : Nat) (alloc : Option (Nat → UInt8)) : Option (Bool × Data) :=
  if newLength ≤ AML_SMALL_BUFFER_SIZE then do
    let small ← copyBack s newLength
    let small ← memset small newLength nul
    return (true, ⟨none, newLength, small⟩)
  else
    match s.heap, alloc with
    | none, none => some (false, { s with heap := some ⟨0, s.small.byte⟩ })
    | none, some _ => do
      let content ← memcpy (calloc ((newLength + nul) % 2 ^ 64)) s.small 0 copied
      let content ← memset content newLength nul
      return (true, ⟨content, newLength, s.small⟩)
    | some content, alloc =>
      -- `realloc` frees for the size 0
      if (newLength + nul) % 2 ^ 64 = 0 then some (false, { s with heap := some ⟨0, content.byte⟩ })
      else do
        let some junk := alloc | some (false, s)
        let content ← memset (realloc content (newLength + nul) junk) s.length
          ((newLength + 2 ^ 64 - s.length + nul) % 2 ^ 64)
        let content ← memset content newLength nul
        return (true, ⟨content, newLength, s.small⟩)

def aml_buffer_resize (s : Data) (newLength : Nat) (alloc : Option (Nat → UInt8)) : Option (Bool × Data) :=
  resizeTo 0 s.length s newLength alloc

def aml_string_resize (s : Data) (newLength : Nat) (alloc : Option (Nat → UInt8)) : Option (Bool × Data) :=
  if newLength = s.length then some (true, s) else resizeTo 1 (min s.length newLength) s newLength alloc

inductive aml_type_t where
  | AML_BUFFER
  | AML_STRING

/-- How many bytes follow the content: the NUL of a string. -/
def aml_type_t.nul : aml_type_t → Nat
  | .AML_BUFFER => 0
  | .AML_STRING => 1

def resize : aml_type_t → Data → Nat → Option (Nat → UInt8) → Option (Bool × Data)
  | .AML_BUFFER => aml_buffer_resize
  | .AML_STRING => aml_string_resize

/-! ## Resizing -/

structure Valid (nul : Nat) (s : Data) : Prop where
  small : s.small.size = 32 + nul
  inline : s.heap = none ↔ s.length ≤ 32
  size : ∀ content, s.heap = some content → content.size = s.length + nul
  length : s.length + nul < 2 ^ 64
  terminated : ∀ i, s.length ≤ i → i < s.length + nul → s.content.byte i = 0

/-- The object has the first `n` bytes it had, followed by zeros. -/
structure Resized (nul : Nat) (s : Data) (n : Nat) (s' : Data) : Prop where
  valid : Valid nul s'
  length : s'.length = n
  bytes : ∀ i < n, s'.content.byte i = if i < s.length then s.content.byte i else 0

/-- An answer to a call. -/
def Answer (nul : Nat) (s : Data) (n : Nat) : Option (Bool × Data) → Prop
  | none => False
  | some (true, s') => Resized nul s n s'
  | some (false, s') => s' = s

/-- An array inside the object grows into zeros only, and is not left for memory that is not there.
An allocation does not shrink to another one. -/
def Grows (nul : Nat) (s : Data) (n : Nat) (alloc : Option (Nat → UInt8)) : Prop :=
  if n ≤ 32 then s.heap = none → ∀ i < n, s.length ≤ i → s.small.byte i = 0
  else n + nul < 2 ^ 64 ∧ if s.heap = none then alloc ≠ none else alloc = none ∨ s.length ≤ n + nul

variable {nul copied n : Nat} {s s' : Data} {alloc : Option (Nat → UInt8)}

theorem answer_on_heap {b : Block} (hs : Valid nul s) (hn : 32 < n) (hfits : n + nul < 2 ^ 64)
    (hsize : b.size = n + nul) (hbytes : ∀ i < n, b.byte i = if i < s.length then s.content.byte i else 0) :
    Answer nul s n ((memset b n nul).bind fun c => some (true, ⟨some c, n, s.small⟩)) := by
  rw [memset, if_pos (Nat.le_of_eq hsize.symm)]
  refine ⟨⟨hs.small, by simpa using hn, ?_, hfits, fun i h1 h2 => if_pos ⟨h1, h2⟩⟩, rfl, fun i hi => ?_⟩
  · rintro _ ⟨⟩
    exact hsize
  · rw [← hbytes i hi]
    exact if_neg (by omega)

theorem answer_inside_iff {b : Block} (hs : Valid nul s) (hnul : nul ≤ 1) (hn : n ≤ 32)
    (hsize : b.size = s.small.size) :
    Answer nul s n ((memset b n nul).bind fun c => some (true, ⟨none, n, c⟩)) ↔
      ∀ i < n, b.byte i = if i < s.length then s.content.byte i else 0 := by
  have hsmall := hs.small
  rw [memset, if_pos (by omega)]
  constructor
  · intro h i hi
    rw [← h.bytes i hi]
    exact (if_neg (by omega)).symm
  · intro h
    refine ⟨⟨hsize.trans hsmall, by simpa using hn, nofun, ?_, fun i h1 h2 => if_pos ⟨h1, h2⟩⟩, rfl, fun i hi => ?_⟩
    · dsimp only
      omega
    · rw [← h i hi]
      exact if_neg (by omega)

theorem resizeTo_answer_iff (hs : Valid nul s) (hnul : nul ≤ 1) (hn : n < 2 ^ 64)
    (hcopied : s.length < n → copied = s.length) :
    Answer nul s n (resizeTo nul copied s n alloc) ↔ Grows nul s n alloc := by
  have hsmall := hs.small
  have hlen := hs.length
  unfold resizeTo copyBack Grows
  cases hheap : s.heap with
  | none =>
    have h32 := hs.inline.1 hheap
    have hcontent : s.content = s.small := by rw [Data.content, hheap, Option.getD_none]
    by_cases hn32 : n ≤ 32
    · rw [if_pos hn32, if_pos hn32]
      refine (answer_inside_iff hs hnul hn32 rfl).trans ?_
      rw [hcontent]
      constructor
      · intro h _ i hi hle
        rw [h i hi, if_neg (by omega)]
      · intro h i hi
        split_ifs with hle
        · rfl
        · exact h rfl i hi (by omega)
    · rw [if_neg hn32, if_neg hn32, if_pos rfl]
      cases alloc with
      | none => simp [Answer, Data.ext_iff, hheap]
      | some junk =>
        have hcopy := hcopied (by omega)
        by_cases hfits : n + nul < 2 ^ 64
        · dsimp only
          rw [Nat.mod_eq_of_lt hfits, memcpy, if_pos ⟨by simp only [calloc]; omega, by omega⟩]
          refine iff_of_true (answer_on_heap hs (by omega) hfits rfl fun i hi => ?_) ⟨hfits, nofun⟩
          simp only [hcontent, hcopy, Nat.zero_add, calloc]
        · have hwrap : (n + nul) % 2 ^ 64 = 0 := by omega
          refine iff_of_false (fun h => ?_) fun h => hfits h.1
          dsimp only at h
          rw [hwrap, memcpy] at h
          split_ifs at h
          · rw [Option.bind_eq_bind, Option.bind_some, memset, if_neg (by simp only [calloc]; omega)] at h
            exact h
          · exact h
  | some content =>
    have hsize := hs.size content hheap
    have h32 : ¬ s.length ≤ 32 := fun h => by simp [hs.inline.2 h] at hheap
    have hcontent : s.content = content := by rw [Data.content, hheap, Option.getD_some]
    by_cases hn32 : n ≤ 32
    · rw [if_pos hn32, if_pos hn32]
      dsimp only
      rw [memcpy, if_pos (by omega), Option.bind_eq_bind, Option.bind_some]
      refine iff_of_true ((answer_inside_iff hs hnul hn32 ?_).2 fun i hi => ?_) nofun
      · rfl
      · simp only [hcontent, Nat.zero_add]
        rw [if_pos (by omega), if_pos (by omega)]
    · rw [if_neg hn32, if_neg hn32, if_neg nofun]
      by_cases hfits : n + nul < 2 ^ 64
      · dsimp only
        rw [if_neg (by omega)]
        cases alloc with
        | none => exact iff_of_true rfl ⟨hfits, .inl rfl⟩
        | some junk =>
          by_cases hle : s.length ≤ n + nul
          · have hdiff : (n + 2 ^ 64 - s.length + nul) % 2 ^ 64 = n + nul - s.length := by omega
            dsimp only
            rw [hdiff, memset, if_pos (by simp only [realloc]; omega)]
            refine iff_of_true (answer_on_heap hs (by omega) hfits rfl fun i hi => ?_) ⟨hfits, .inr hle⟩
            simp only [hcontent, realloc]
            by_cases hi' : i < s.length
            · rw [if_neg (by omega), if_pos (by omega), if_pos hi']
            · rw [if_pos (by omega), if_neg hi']
          · dsimp only
            rw [memset, if_neg (by simp only [realloc]; omega)]
            exact iff_of_false id fun h => by simp [hle] at h
      · dsimp only
        rw [if_pos (by omega)]
        refine iff_of_false (fun h => ?_) fun h => hfits h.1
        have hzero : (some ⟨0, content.byte⟩ : Option Block) = s.heap := congrArg Data.heap h
        have hsize' := hs.size _ hzero.symm
        dsimp only at hsize'
        omega

structure Action where
  newLength : Fin (2 ^ 64)
  alloc : Option (Nat → UInt8)

def step (type : aml_type_t) (s : Data) (a : Action) : Option Data :=
  (resize type s a.newLength a.alloc).map Prod.snd

def Right (type : aml_type_t) (s : Data) (a : Action) : Prop :=
  Answer type.nul s a.newLength (resize type s a.newLength a.alloc)

def Careful (type : aml_type_t) (s : Data) (a : Action) : Prop := Grows type.nul s a.newLength a.alloc

variable {type : aml_type_t} {a : Action}

theorem right_iff (hs : Valid type.nul s) : Right type s a ↔ Careful type s a := by
  have hn := a.newLength.isLt
  cases type with
  | AML_BUFFER => exact resizeTo_answer_iff hs (Nat.zero_le _) hn fun _ => rfl
  | AML_STRING =>
    simp only [Right, Careful, resize, aml_string_resize]
    split_ifs with heq
    · refine iff_of_true ⟨hs, heq.symm, fun i hi => (if_pos (by omega)).symm⟩ ?_
      unfold Grows
      split_ifs with h32 hheap
      · intro _ i hi hle
        omega
      · have := hs.inline.1 hheap
        omega
      · exact ⟨heq ▸ hs.length, .inr (by omega)⟩
    · exact resizeTo_answer_iff hs (Nat.le_refl _) hn fun h => Nat.min_eq_left (Nat.le_of_lt h)

theorem valid_step (hs : Valid type.nul s) (hr : Right type s a) (h : step type s a = some s') : Valid type.nul s' := by
  unfold Right at hr
  obtain ⟨⟨ok, _⟩, heq, rfl⟩ := Option.map_eq_some_iff.1 h
  rw [heq] at hr
  cases ok with
  | true => exact hr.valid
  | false => exact (show _ = s from hr) ▸ hs

/-- An object. -/
abbrev Object (type : aml_type_t) : Type := { s : Data // Valid type.nul s }

/-- Every call resizes as that of a byte array does exactly if every call grows the object carefully. -/
theorem resize_right_iff (type : aml_type_t) (o : Object type) (acts : List Action) :
    Along (step type) (Right type) o acts ↔ Along (step type) (Careful type) o acts := by
  constructor
  · intro h
    exact h.along (fun _ _ _ => valid_step) (fun _ _ hs => (right_iff hs).1) o.2
  · intro h
    exact h.along (fun _ _ _ hs hc => valid_step hs ((right_iff hs).2 hc)) (fun _ _ hs => (right_iff hs).2) o.2

def sevens : Object .AML_BUFFER :=
  ⟨⟨none, 2, ⟨32, fun i => if i < 2 then 7 else 0⟩⟩, rfl, by simp, nofun, by decide,
    fun _ h1 h2 => absurd h2 (Nat.not_lt.2 h1)⟩

/-- The byte that a buffer has lost is there again. -/
theorem shrunkAndGrown_not_right :
    ¬ Along (step .AML_BUFFER) (Right .AML_BUFFER) sevens.1 [⟨1, none⟩, ⟨2, none⟩] := by
  intro h
  have hright : Right .AML_BUFFER ⟨none, 1, _⟩ ⟨2, none⟩ := (h.2 _ rfl).1
  have hbyte := hright.bytes 1 (by decide)
  cases hbyte

/-! ## Mid -/

/-- The content after `aml_buffer_set_empty` or `aml_string_set_empty` of a new object with the bytes
`junk` in its array, of which a string keeps the last. -/
def setEmpty (nul length : Nat) (alloc : Bool) (junk : Nat → UInt8) : Option Block :=
  if length ≤ AML_SMALL_BUFFER_SIZE then
    some ⟨AML_SMALL_BUFFER_SIZE + nul, fun i => if i < AML_SMALL_BUFFER_SIZE then 0 else junk i⟩
  else if alloc then some (calloc ((length + nul) % 2 ^ 64))
  else none

/-- The length and the content of the new object. `new` and `alloc` are false if there is no memory
for the object or for its content. -/
def aml_mid (type : aml_type_t) (s : Data) (index length : Nat) (new alloc : Bool) (junk : Nat → UInt8) :
    Option (Option (Nat × Block)) :=
  match if new then setEmpty type.nul length alloc junk else none with
  | none => some none
  | some content =>
    if index ≥ s.length then some (some (length, content))
    else
      let copied := if (index + length) % 2 ^ 64 > s.length then s.length - index else length
      ((memcpy content s.content index copied).bind (memset · copied type.nul)).map fun content => (length, content)

/-- The result is a slice of the object. -/
def Sliced (s : Data) (index length : Nat) : Option (Option (Nat × Block)) → Prop
  | some (some (n, content)) => n = min length (s.length - index) ∧ ∀ i < n, content.byte i = s.content.byte (index + i)
  | _ => False

theorem Valid.content_size (hs : Valid nul s) : s.length + nul ≤ s.content.size := by
  have hsmall := hs.small
  unfold Data.content
  cases hheap : s.heap with
  | none => exact hsmall ▸ Nat.add_le_add_right (hs.inline.1 hheap) nul
  | some content => exact Nat.le_of_eq (hs.size content hheap).symm

theorem setEmpty_eq {b : Block} {alloc : Bool} {junk : Nat → UInt8} (h : setEmpty nul n alloc junk = some b) :
    (n + nul < 2 ^ 64 → n + nul ≤ b.size) ∧ (n ≤ 32 ∨ alloc = true) := by
  unfold setEmpty at h
  split_ifs at h with h1 h2 <;> cases h
  · exact ⟨fun _ => Nat.add_le_add_right h1 nul, .inl h1⟩
  · exact ⟨fun hn => Nat.le_of_eq (Nat.mod_eq_of_lt hn).symm, .inr h2⟩

/-- `Mid` is a slice exactly if there is memory, and the slice lies in the object or is empty. -/
theorem mid_right_iff (type : aml_type_t) (o : Object type) (index length : Fin (2 ^ 64)) (new alloc : Bool)
    (junk : Nat → UInt8) : Sliced o index length (aml_mid type o index length new alloc junk) ↔
      new = true ∧ (length.val ≤ 32 ∨ alloc = true) ∧ (length.val = 0 ∨ index + length.val ≤ o.1.length) := by
  obtain ⟨s, hs⟩ := o
  have hlen := hs.length
  have hsize := hs.content_size
  unfold aml_mid
  cases hempty : if new then setEmpty type.nul length alloc junk else none with
  | none =>
    refine iff_of_false id ?_
    rintro ⟨rfl, hmem, -⟩
    simp only [if_true, setEmpty] at hempty
    split_ifs at hempty with h32 halloc
    exact halloc (hmem.resolve_left h32)
  | some b =>
    obtain ⟨rfl, hb⟩ := Option.ite_none_right_eq_some.1 hempty
    obtain ⟨hbig, hmem⟩ := setEmpty_eq hb
    refine Iff.trans ?_ (by simp [hmem] : length.val = 0 ∨ index + length.val ≤ s.length ↔ _)
    dsimp only
    by_cases hge : index.val ≥ s.length
    · rw [if_pos hge]
      simp only [Sliced]
      exact ⟨fun h => by omega, fun h => ⟨by omega, fun i hi => by omega⟩⟩
    rw [if_neg hge]
    by_cases hin : index + length.val ≤ s.length
    · refine iff_of_true ?_ (.inr hin)
      rw [if_neg (by omega), memcpy, if_pos (by omega), Option.bind_some, memset, if_pos (by dsimp only; omega)]
      refine ⟨by omega, fun i hi => ?_⟩
      dsimp only
      rw [if_neg (by omega), if_pos hi]
    · refine iff_of_false (fun h => ?_) (by omega)
      generalize Option.bind _ _ = copy at h
      cases copy with
      | none => exact h
      | some c =>
        have hmin := h.1
        omega

/-- A slice of no bytes has one. -/
theorem mid_not_right : ¬ Sliced sevens.1 2 1 (aml_mid .AML_BUFFER sevens.1 2 1 true true fun _ => 0) := by
  rintro ⟨h, -⟩
  cases h

end Patchwork.Aml
