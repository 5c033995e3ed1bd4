import Patchwork.Mem.Paging
/-!
# Page tables as functions

What a page table means is one entry for each of the `2 ^ 36` pages, zero where
a level is absent. Adding levels does not change it, since new tables are zero,
and writing the entry of a page changes it at that page alone. Each function of
`paging.h` is thereby a function on entries, and its users need not look at the
levels.
-/

namespace Patchwork.Paging

open Function Lib

/-! ## Entries -/

namespace Entry

@[simp] theorem present_zero : present 0#64 = false := rfl

theorem present_eq (e : pml_entry_t) : present e = decide (field e 0 1 = 1) := getLsbD_eq_field e 0

@[simp] theorem present_clearPresent (e : pml_entry_t) : present (clearPresent e) = false := by
  rw [present_eq, clearPresent, field_setField_self (by decide)]
  rfl

@[simp] theorem present_setPfn (e : pml_entry_t) (pfn : Nat) : present (setPfn e pfn) = present e := by
  rw [present_eq, present_eq, setPfn, field_setField_of_apart (by decide) (by decide)]

@[simp] theorem present_setCallbackId (e : pml_entry_t) (id : Nat) : present (setCallbackId e id) = present e := by
  rw [present_eq, present_eq, setCallbackId, field_setField_of_apart (by decide) (by decide),
    field_setField_of_apart (by decide) (by decide)]

theorem callbackId_setCallbackId (e : pml_entry_t) {id : Nat} (h : id < 256) : callbackId (setCallbackId e id) = id := by
  have hall : ∀ id < 256, (id &&& 1) % 2 ^ 1 ||| (id >>> 1 % 2 ^ 7) <<< 1 = id := by decide +kernel
  rw [callbackId, setCallbackId, field_setField_self (by decide), field_setField_of_apart (by decide) (by decide),
    field_setField_self (by decide)]
  exact hall id h

theorem callbackId_flags (e flags : pml_entry_t) :
    callbackId ((e &&& ~~~PML_FLAGS_MASK) ||| (flags &&& PML_FLAGS_MASK)) = callbackId e := by
  have hmask : ∀ i, 10 ≤ i → i < 63 → PML_FLAGS_MASK.getLsbD i = false := by decide
  have hbit : ∀ i, 10 ≤ i → i < 63 →
      ((e &&& ~~~PML_FLAGS_MASK) ||| (flags &&& PML_FLAGS_MASK)).getLsbD i = e.getLsbD i := by
    intro i h1 h2
    simp only [BitVec.getLsbD_or, BitVec.getLsbD_and, BitVec.getLsbD_not, hmask i h1 h2, show i < 64 by omega,
      decide_true, Bool.not_false, Bool.and_true, Bool.and_false, Bool.or_false]
  rw [callbackId, callbackId, field_congr fun i h1 h2 => hbit i (by omega) (by omega),
    field_congr fun i h1 h2 => hbit i (by omega) (by omega)]

theorem present_flags (e flags : pml_entry_t) :
    present ((e &&& ~~~PML_FLAGS_MASK) ||| (flags &&& PML_FLAGS_MASK)) = present flags := by
  have hmask : PML_FLAGS_MASK.getLsbD 0 = true := by decide
  simp only [present, BitVec.getLsbD_or, BitVec.getLsbD_and, BitVec.getLsbD_not, hmask, Bool.not_true, Bool.and_false,
    Bool.and_true, Bool.false_or]

end Entry

/-! ## Levels -/

variable {pml pml4 : pml_t} {addr n a : Nat}

namespace pml_t

@[simp] theorem entry_set (pml : pml_t) (i j : Nat) (e : pml_entry_t) (table : pml_t) :
    (pml.set i e table).entry j = if j = i then e else pml.entry j := by
  simp only [set, entry, update_apply]

@[simp] theorem next_set (pml : pml_t) (i j : Nat) (e : pml_entry_t) (table : pml_t) :
    (pml.set i e table).next j = if j = i then table else pml.next j := by
  simp only [set, next, update_apply]

theorem entry_setNext (pml : pml_t) (i j : Nat) (table : pml_t) : (pml.setNext i table).entry j = pml.entry j := by
  rw [setNext, entry_set]
  split
  · rename_i h
    rw [h]
  · rfl

theorem next_setNext (pml : pml_t) (i j : Nat) (table : pml_t) :
    (pml.setNext i table).next j = if j = i then table else pml.next j := next_set _ _ _ _ _

theorem setNext_self {i : Nat} (h : Entry.present (pml.entry i) = true) : pml.setNext i (pml.next i) = pml := by
  cases pml with
  | null => simp [entry] at h
  | mk entries next =>
    have he : entry (mk entries next) = entries := rfl
    have hn : pml_t.next (mk entries next) = next := rfl
    rw [setNext, set, he, hn, update_eq_self, update_eq_self]

end pml_t

/-- The entry for `addr` in a table of level `n + 1`, zero if a level is absent. -/
def leaf (addr : Nat) : Nat → pml_t → pml_entry_t
  | 0, pml => pml.entry (PML_ADDR_TO_INDEX addr 1)
  | n + 1, pml =>
    if Entry.present (pml.entry (PML_ADDR_TO_INDEX addr (n + 2))) then
      leaf addr n (pml.next (PML_ADDR_TO_INDEX addr (n + 2)))
    else 0#64

/-- No level above the entry for `addr` is absent. -/
def Linked (addr : Nat) : Nat → pml_t → Prop
  | 0, _ => True
  | n + 1, pml =>
    Entry.present (pml.entry (PML_ADDR_TO_INDEX addr (n + 2))) = true ∧
      Linked addr n (pml.next (PML_ADDR_TO_INDEX addr (n + 2)))

/-- The two addresses have the same entry in a table of level `n + 1`. -/
def SameEntry (a b : Nat) : Nat → Prop
  | 0 => PML_ADDR_TO_INDEX a 1 = PML_ADDR_TO_INDEX b 1
  | n + 1 => PML_ADDR_TO_INDEX a (n + 2) = PML_ADDR_TO_INDEX b (n + 2) ∧ SameEntry a b n

theorem entryAt_eq_leaf (h : Linked addr n pml) : entryAt addr n pml = leaf addr n pml := by
  induction n generalizing pml with
  | zero => rfl
  | succ n ih =>
    rw [entryAt, leaf, if_pos h.1]
    exact ih h.2

theorem leaf_of_not_linked (h : ¬Linked addr n pml) : leaf addr n pml = 0#64 := by
  induction n generalizing pml with
  | zero => exact absurd trivial h
  | succ n ih =>
    rw [leaf]
    split
    · rename_i hp
      exact ih fun hl => h ⟨hp, hl⟩
    · rfl

theorem leaf_setEntryAt (h : Linked addr n pml) (e : pml_entry_t) :
    (SameEntry a addr n → leaf a n (setEntryAt addr e n pml) = e) ∧
      (¬SameEntry a addr n → leaf a n (setEntryAt addr e n pml) = leaf a n pml) := by
  induction n generalizing pml with
  | zero =>
    simp only [SameEntry, setEntryAt, leaf, pml_t.entry_set]
    exact ⟨fun h => if_pos h, fun h => if_neg h⟩
  | succ n ih =>
    obtain ⟨hp, hl⟩ := h
    simp only [SameEntry, setEntryAt, leaf, pml_t.entry_setNext, pml_t.next_setNext]
    by_cases hi : PML_ADDR_TO_INDEX a (n + 2) = PML_ADDR_TO_INDEX addr (n + 2)
    · simp only [hi, hp, if_true, true_and]
      exact ih hl
    · simp only [hi, false_and, if_false, not_false_eq_true, false_implies, true_implies, true_and]

theorem linked_setEntryAt (e : pml_entry_t) : Linked a n (setEntryAt addr e n pml) ↔ Linked a n pml := by
  induction n generalizing pml with
  | zero => rfl
  | succ n ih =>
    simp only [Linked, setEntryAt, pml_t.entry_setNext, pml_t.next_setNext]
    by_cases hi : PML_ADDR_TO_INDEX a (n + 2) = PML_ADDR_TO_INDEX addr (n + 2)
    · rw [if_pos hi, ih, hi]
    · rw [if_neg hi]

variable {σ : Type} (env : Env σ) {mem : σ} {flags : pml_flags_t} {traverse : page_table_traverse_t}

theorem get_pml_none {current : pml_t} {index : Nat} (h : Entry.present flags = false) :
    page_table_get_pml env current mem index flags =
      (if Entry.present (current.entry index) then some current else none, mem) := by
  unfold page_table_get_pml
  split <;> simp [h]

theorem leaf_zero (a n : Nat) : leaf a n (.mk (fun _ => 0#64) fun _ => .null) = 0#64 := by
  cases n with
  | zero => rfl
  | succ n => exact if_neg (by simp [pml_t.entry])

/-- The level is there afterwards, and every page is as before. -/
theorem get_pml_some {current current' : pml_t} {mem' : σ} {index : Nat}
    (h : page_table_get_pml env current mem index flags = (some current', mem')) :
    Entry.present (current'.entry index) = true ∧ ∀ a n, leaf a (n + 1) current' = leaf a (n + 1) current := by
  unfold page_table_get_pml at h
  split at h
  · rename_i hp
    obtain ⟨h1, -⟩ := Prod.mk.inj h
    cases h1
    exact ⟨hp, fun _ _ => rfl⟩
  · rename_i hp
    split at h
    · rename_i hf
      have hbit : Entry.present (flags &&& PML_FLAGS_MASK) = true := by
        have hmask : PML_FLAGS_MASK.getLsbD 0 = true := by decide
        rw [Entry.present, BitVec.getLsbD_and, hmask, Bool.and_true]
        exact hf
      rcases hn : env.allocPages mem 1 with ⟨_ | pfns, mem1⟩
      · simp [pml_new, hn] at h
      · simp only [pml_new, hn, Prod.mk.injEq, Option.some.injEq] at h
        obtain ⟨rfl, -⟩ := h
        refine ⟨by simp [hbit], fun a n => ?_⟩
        by_cases hi : PML_ADDR_TO_INDEX a (n + 2) = index
        · rw [leaf, leaf, hi, if_neg hp]
          simp [hbit, leaf_zero]
        · simp [leaf, hi]
    · cases h

/-! ## Walking -/

def levelFlags (flags : pml_flags_t) (level : Nat) : pml_flags_t :=
  if level = 4 then (flags ||| PML_WRITE ||| PML_USER) &&& ~~~PML_GLOBAL else flags ||| PML_WRITE ||| PML_USER

/-- `page_table_traverse` without its cache, from a table of level `n + 1` on. -/
def walk (addr : Nat) (flags : pml_flags_t) : Nat → pml_t → σ → Bool × pml_t × σ
  | 0, pml, mem => (true, pml, mem)
  | n + 1, pml, mem =>
    match page_table_get_pml env pml mem (PML_ADDR_TO_INDEX addr (n + 2)) (levelFlags flags (n + 2)) with
    | (none, mem) => (false, pml, mem)
    | (some pml, mem) =>
      let r := walk addr flags n (pml.next (PML_ADDR_TO_INDEX addr (n + 2))) mem
      (r.1, pml.setNext (PML_ADDR_TO_INDEX addr (n + 2)) r.2.1, r.2.2)

theorem leaf_setNext {table : pml_t} (h : leaf a n table = leaf a n (pml.next (PML_ADDR_TO_INDEX addr (n + 2)))) :
    leaf a (n + 1) (pml.setNext (PML_ADDR_TO_INDEX addr (n + 2)) table) = leaf a (n + 1) pml := by
  simp only [leaf, pml_t.entry_setNext, pml_t.next_setNext]
  by_cases hi : PML_ADDR_TO_INDEX a (n + 2) = PML_ADDR_TO_INDEX addr (n + 2)
  · rw [if_pos hi, h, hi]
  · rw [if_neg hi]

theorem walk_leaf (addr : Nat) (flags : pml_flags_t) (a n : Nat) (pml : pml_t) (mem : σ) :
    leaf a n (walk env addr flags n pml mem).2.1 = leaf a n pml := by
  induction n generalizing pml mem with
  | zero => rfl
  | succ n ih =>
    rw [walk]
    rcases hg : page_table_get_pml env pml mem (PML_ADDR_TO_INDEX addr (n + 2)) (levelFlags flags (n + 2)) with
      ⟨_ | pml', mem'⟩
    · rfl
    · exact (leaf_setNext (ih _ _)).trans ((get_pml_some env hg).2 a n)

theorem walk_linked (h : (walk env addr flags n pml mem).1 = true) : Linked addr n (walk env addr flags n pml mem).2.1 := by
  induction n generalizing pml mem with
  | zero => trivial
  | succ n ih =>
    rw [walk] at h ⊢
    rcases hg : page_table_get_pml env pml mem (PML_ADDR_TO_INDEX addr (n + 2)) (levelFlags flags (n + 2)) with
      ⟨_ | pml', mem'⟩
    · rw [hg] at h
      cases h
    · rw [hg] at h
      refine ⟨?_, ?_⟩
      · rw [pml_t.entry_setNext]
        exact (get_pml_some env hg).1
      · rw [pml_t.next_setNext, if_pos rfl]
        exact ih h

theorem present_levelFlags_none (level : Nat) : Entry.present (levelFlags PML_NONE level) = false := by
  unfold levelFlags
  split <;> decide

theorem walk_none (addr n : Nat) (pml : pml_t) (mem : σ) :
    (walk env addr PML_NONE n pml mem).2 = (pml, mem) ∧
      ((walk env addr PML_NONE n pml mem).1 = true ↔ Linked addr n pml) := by
  induction n generalizing pml with
  | zero => exact ⟨rfl, iff_of_true rfl trivial⟩
  | succ n ih =>
    rw [walk, get_pml_none env (present_levelFlags_none _)]
    split
    · rename_i hp
      split at hp
      · cases hp
      · rename_i hnot
        obtain ⟨-, rfl⟩ := Prod.mk.inj hp
        exact ⟨rfl, iff_of_false Bool.false_ne_true fun hl => hnot hl.1⟩
    · rename_i hp
      split at hp
      · rename_i hpres
        obtain ⟨h1, rfl⟩ := Prod.mk.inj hp
        cases h1
        obtain ⟨h2, h3⟩ := ih (pml.next (PML_ADDR_TO_INDEX addr (n + 2)))
        simp only [h2, pml_t.setNext_self hpres, h3, Linked, hpres, true_and, and_self]
      · cases (Prod.mk.inj hp).1

/-- Nothing sets the flags of the cache. -/
def page_table_traverse_t.Invalid (traverse : page_table_traverse_t) : Prop :=
  traverse.pml3Valid = false ∧ traverse.pml2Valid = false ∧ traverse.pml1Valid = false

theorem traverse_create_invalid : PAGE_TABLE_TRAVERSE_CREATE.Invalid := ⟨rfl, rfl, rfl⟩

theorem traverse_eq_walk (h : traverse.Invalid) (pml4 : pml_t) (mem : σ) (addr : Nat) (flags : pml_flags_t) :
    ∃ traverse' : page_table_traverse_t, traverse'.Invalid ∧
      page_table_traverse env pml4 mem traverse addr flags =
        ((walk env addr flags 3 pml4 mem).1, (walk env addr flags 3 pml4 mem).2.1, (walk env addr flags 3 pml4 mem).2.2,
          traverse') := by
  obtain ⟨h3, h2, h1⟩ := h
  have hf4 : levelFlags flags 4 = (flags ||| PML_WRITE ||| PML_USER) &&& ~~~PML_GLOBAL := rfl
  have hf3 : levelFlags flags 3 = flags ||| PML_WRITE ||| PML_USER := rfl
  have hf2 : levelFlags flags 2 = flags ||| PML_WRITE ||| PML_USER := rfl
  simp only [page_table_traverse, traverseLevel, h3, h1, Bool.false_and, Bool.not_false, if_true, walk, hf4, hf3, hf2,
    Nat.reduceAdd]
  rcases hg4 : page_table_get_pml env pml4 mem (PML_ADDR_TO_INDEX addr 4)
      ((flags ||| PML_WRITE ||| PML_USER) &&& ~~~PML_GLOBAL) with ⟨_ | pml4', mem4⟩
  · exact ⟨traverse, ⟨h3, h2, h1⟩, rfl⟩
  · have hp4 := (get_pml_some env hg4).1
    simp only
    rcases hg3 : page_table_get_pml env (pml4'.next (PML_ADDR_TO_INDEX addr 4)) mem4 (PML_ADDR_TO_INDEX addr 3)
        (flags ||| PML_WRITE ||| PML_USER) with ⟨_ | pml3', mem3⟩
    · simp only [pml_t.setNext_self hp4]
      refine ⟨_, ?_, rfl⟩
      exact ⟨rfl, rfl, rfl⟩
    · have hp3 := (get_pml_some env hg3).1
      simp only
      rcases hg2 : page_table_get_pml env (pml3'.next (PML_ADDR_TO_INDEX addr 3)) mem3 (PML_ADDR_TO_INDEX addr 2)
          (flags ||| PML_WRITE ||| PML_USER) with ⟨_ | pml2', mem2⟩
      · simp only [pml_t.setNext_self hp3]
        refine ⟨_, ?_, rfl⟩
        exact ⟨rfl, rfl, rfl⟩
      · have hp2 := (get_pml_some env hg2).1
        simp only [pml_t.setNext_self hp2]
        refine ⟨_, ?_, rfl⟩
        exact ⟨rfl, rfl, rfl⟩

/-! ## Pages -/

/-- The number of the page of `addr`. -/
def vpn (addr : Nat) : Nat := addr / PAGE_SIZE % 2 ^ 36

/-- The entry of page `v`. -/
def page (pml4 : pml_t) (v : Nat) : pml_entry_t := leaf (v * PAGE_SIZE) 3 pml4

theorem index_eq (addr level : Nat) (h1 : 1 ≤ level) (h4 : level ≤ 4) :
    PML_ADDR_TO_INDEX addr level = vpn addr / 2 ^ ((level - 1) * 9) % 512 := by
  obtain rfl | rfl | rfl | rfl : level = 1 ∨ level = 2 ∨ level = 3 ∨ level = 4 := by omega
  all_goals
    simp only [PML_ADDR_TO_INDEX, PML_INDEX_AMOUNT, vpn, PAGE_SIZE]
    omega

theorem vpn_lt (addr : Nat) : vpn addr < 2 ^ 36 := Nat.mod_lt _ (by decide)

theorem vpn_page {v : Nat} (h : v < 2 ^ 36) : vpn (v * PAGE_SIZE) = v := by
  rw [vpn, Nat.mul_div_cancel _ (by decide), Nat.mod_eq_of_lt h]

theorem sameEntry_iff (a b : Nat) : SameEntry a b 3 ↔ vpn a = vpn b := by
  have ha := vpn_lt a
  have hb := vpn_lt b
  simp only [SameEntry, index_eq _ 4 (by decide) (by decide), index_eq _ 3 (by decide) (by decide),
    index_eq _ 2 (by decide) (by decide), index_eq _ 1 (by decide) (by decide)]
  refine ⟨fun h => ?_, fun h => by rw [h]; exact ⟨rfl, rfl, rfl, rfl⟩⟩
  omega

theorem leaf_congr {b : Nat} (h : vpn a = vpn b) : leaf a 3 pml4 = leaf b 3 pml4 := by
  simp only [leaf, index_eq _ 4 (by decide) (by decide), index_eq _ 3 (by decide) (by decide),
    index_eq _ 2 (by decide) (by decide), index_eq _ 1 (by decide) (by decide), h]

theorem leaf_eq_page (a : Nat) (pml4 : pml_t) : leaf a 3 pml4 = page pml4 (vpn a) :=
  leaf_congr (vpn_page (vpn_lt a)).symm

theorem entryAt_eq_page (h : Linked addr 3 pml4) : entryAt addr 3 pml4 = page pml4 (vpn addr) :=
  (entryAt_eq_leaf h).trans (leaf_eq_page addr pml4)

theorem page_setEntryAt (h : Linked addr 3 pml4) (e : pml_entry_t) {v : Nat}
    (hv : v < 2 ^ 36) : page (setEntryAt addr e 3 pml4) v = if v = vpn addr then e else page pml4 v := by
  have hsame := sameEntry_iff (v * PAGE_SIZE) addr
  rw [vpn_page hv] at hsame
  split
  · rename_i heq
    exact (leaf_setEntryAt h e).1 (hsame.2 heq)
  · rename_i hne
    exact (leaf_setEntryAt h e).2 (mt hsame.1 hne)

theorem traverse_spec (h : traverse.Invalid) (pml4 : pml_t) (mem : σ) (addr : Nat) (flags : pml_flags_t) :
    ∃ ok pml4' mem', ∃ traverse' : page_table_traverse_t,
      page_table_traverse env pml4 mem traverse addr flags = (ok, pml4', mem', traverse') ∧ traverse'.Invalid ∧
        page pml4' = page pml4 ∧ (ok = true → Linked addr 3 pml4') := by
  obtain ⟨traverse', hinv, heq⟩ := traverse_eq_walk env h pml4 mem addr flags
  exact ⟨_, _, _, traverse', heq, hinv, funext fun v => walk_leaf env addr flags _ 3 pml4 mem, walk_linked env⟩

/-- With `PML_NONE` it adds nothing, and where it fails the page is absent. -/
theorem traverse_none (h : traverse.Invalid) (pml4 : pml_t) (mem : σ) (addr : Nat) :
    ∃ ok, ∃ traverse' : page_table_traverse_t,
      page_table_traverse env pml4 mem traverse addr PML_NONE = (ok, pml4, mem, traverse') ∧ traverse'.Invalid ∧
        (ok = true ∧ Linked addr 3 pml4 ∨ ok = false ∧ ¬Linked addr 3 pml4 ∧ page pml4 (vpn addr) = 0#64) := by
  obtain ⟨traverse', hinv, heq⟩ := traverse_eq_walk env h pml4 mem addr PML_NONE
  obtain ⟨h1, h2⟩ := walk_none env addr 3 pml4 mem
  rw [h1] at heq
  refine ⟨_, traverse', heq, hinv, ?_⟩
  cases hok : (walk env addr PML_NONE 3 pml4 mem).1 with
  | true => exact .inl ⟨rfl, h2.1 hok⟩
  | false =>
    have hnot : ¬Linked addr 3 pml4 := fun hl => by rw [h2.2 hl] at hok; cases hok
    exact .inr ⟨rfl, hnot, (leaf_eq_page addr pml4).symm.trans (leaf_of_not_linked hnot)⟩

end Patchwork.Paging
