import Patchwork.Libstd.HeapInv
/-!
# Freeing a block

`_heap_free` merges the block with the next one and then with the previous one, if
they are free and adjacent and the result is not too large. That leaves no free
block next to it that it could still be merged with: what it did not take in is
too large, and what comes after a block that it took in was too large for that one
already. `heap_free_rule` also carries along any property that merging and the free
lists keep.
-/

namespace Patchwork.Heap

open Option List Function Lib

variable {env : Env} {h h' : heap_t} {a b : Nat} {held : Option Nat} {l₁ l₂ : List Nat}
  {hd : heap_header_t}

/-! ## The neighbours on the list -/

theorem listNext_append (ha : a ∉ l₁) : listNext (l₁ ++ a :: l₂) a = l₂.head? := by
  induction l₁ with
  | nil => simp [listNext]
  | cons x l ih =>
    obtain ⟨hx, hl⟩ := not_or.1 (mt mem_cons.2 ha)
    rw [cons_append, listNext, if_neg (Ne.symm hx), ih hl]

theorem listPrev_cons {x : Nat} (ha : a ∉ l₂) : listPrev (x :: l₂) a = none := by
  induction l₂ generalizing x with
  | nil => rfl
  | cons y l ih =>
    obtain ⟨hy, hl⟩ := not_or.1 (mt mem_cons.2 ha)
    rw [listPrev, if_neg (Ne.symm hy), ih hl]

theorem listPrev_append (ha : a ∉ l₁) (ha₂ : a ∉ l₂) : listPrev (l₁ ++ a :: l₂) a = l₁.getLast? := by
  induction l₁ with
  | nil => exact listPrev_cons ha₂
  | cons x l ih =>
    obtain ⟨hx, hl⟩ := not_or.1 (mt mem_cons.2 ha)
    cases l with
    | nil => simp [listPrev]
    | cons y l =>
      obtain ⟨hy, -⟩ := not_or.1 (mt mem_cons.2 hl)
      rw [cons_append, cons_append, listPrev, if_neg (Ne.symm hy), ← cons_append, ih hl,
        getLast?_cons_cons]

theorem mem_of_eq_append {l : List Nat} (hl : l = l₁ ++ a :: l₂) : a ∈ l := by simp [hl]

theorem list_append_eq (ha : a ∉ l₁) : list_append (l₁ ++ a :: l₂) a b = l₁ ++ a :: b :: l₂ := by
  induction l₁ with
  | nil => simp [list_append]
  | cons x l ih =>
    obtain ⟨hx, hl⟩ := not_or.1 (mt mem_cons.2 ha)
    rw [cons_append, list_append, if_neg (Ne.symm hx), ih hl, cons_append]

/-! ## Merging -/

/-- The block `x` takes in the block `y`, where `other` is the free one of them. -/
def absorb (env : Env) (h : heap_t) (x y other : Nat) (hd : heap_header_t) : heap_t :=
  let h := heap_remove_from_free_list h other
  let h := h.setHeader env x hd
  { h with heapList := h.heapList.erase y }

/-- The case in which two blocks are merged. -/
structure Mergeable (h : heap_t) (held : Option Nat) (x y other : Nat) (l₁ l₂ : List Nat) : Prop where
  inv : Inv h held
  list : h.heapList = l₁ ++ x :: y :: l₂
  adjacent : (h.segment x).stop = y
  pair : held = some x ∧ other = y ∨ held = some y ∧ other = x
  idle : Idle h held other

section Absorb
variable {x y other : Nat}

theorem header_absorb_eq : (absorb env h x y other hd).header = update h.header x hd := by
  rw [← (same_remove h other).header]
  rfl

theorem header_absorb_self : (absorb env h x y other hd).header x = hd := update_self ..

theorem header_absorb (b : Nat) (hb : b ≠ x) : (absorb env h x y other hd).header b = h.header b := by
  rw [header_absorb_eq, update_of_ne hb]

section
variable (hm : Mergeable h held x y other l₁ l₂)
include hm

theorem Mergeable.heapList : (absorb env h x y other hd).heapList = l₁ ++ x :: l₂ := by
  have hsame := (same_remove h other).heapList
  obtain ⟨h1, -⟩ := hm.inv.notMem_second hm.list
  have hxy : x ≠ y := by
    rintro rfl
    exact (hm.inv.notMem hm.list).2 mem_cons_self
  simp only [absorb, heap_t.setHeader]
  rw [hsame, hm.list, erase_append_right _ h1, erase_cons_tail (by simpa using hxy), erase_cons_head]

theorem Mergeable.mem_list : b ∈ h.heapList ↔ b ∈ (absorb env h x y other hd).heapList ∨ b = y := by
  rw [hm.heapList, hm.list]
  simp only [mem_append, mem_cons]
  tauto

theorem Mergeable.idle_iff (b : Nat) : Idle h held b ∧ b ≠ other ↔ Idle (absorb env h x y other hd) (some x) b :=
  hm.inv.idle_merged hm.list hm.pair header_absorb_eq hm.heapList b

theorem Mergeable.stop_eq
    (hsize : hd.size = h.size x + HEADER_SIZE + h.size y) :
    ((absorb env h x y other hd).segment x).stop = (h.segment y).stop := by
  have hadj := hm.adjacent
  rw [stop_segment] at hadj ⊢
  rw [stop_segment, heap_t.size, header_absorb_self, hsize]
  omega

theorem Mergeable.absorb
    (hsize : hd.size = h.size x + HEADER_SIZE + h.size y) (hmap : hd.mapped = false) :
    Inv (absorb env h x y other hd) (some x) := by
  have hsame := same_remove h other
  exact hm.inv.merge hm.list hm.adjacent hm.pair hm.idle hsize hmap header_absorb_eq hm.heapList hsame.runs
    hsame.large rfl rfl

end

end Absorb

/-- An allocated block stays as it is. -/
structure Keeps (h h' : heap_t) : Prop where
  blocks : ∀ b ∈ h.heapList, (h.header b).allocated = true → b ∈ h'.heapList ∧ h'.header b = h.header b
  runs : h'.runs = h.runs
  large : h'.large = h.large

theorem Keeps.refl (h : heap_t) : Keeps h h := ⟨fun _ hb _ => ⟨hb, rfl⟩, rfl, rfl⟩

theorem Keeps.trans {h₁ h₂ h₃ : heap_t} (h12 : Keeps h₁ h₂) (h23 : Keeps h₂ h₃) : Keeps h₁ h₃ where
  blocks b hb ha := by
    obtain ⟨hb2, heq⟩ := h12.blocks b hb ha
    obtain ⟨hb3, heq'⟩ := h23.blocks b hb2 (heq ▸ ha)
    exact ⟨hb3, heq'.trans heq⟩
  runs := h23.runs.trans h12.runs
  large := h23.large.trans h12.large

theorem Mergeable.keeps {x y other : Nat} (hm : Mergeable h held x y other l₁ l₂)
    (hx : (h.header x).allocated = false) (hy : (h.header y).allocated = false) :
    Keeps h (Heap.absorb env h x y other hd) where
  blocks b hb ha := by
    have hbx : b ≠ x := by rintro rfl; rw [hx] at ha; cases ha
    have hby : b ≠ y := by rintro rfl; rw [hy] at ha; cases ha
    exact ⟨(hm.mem_list.1 hb).resolve_right hby, header_absorb b hbx⟩
  runs := (same_remove h other).runs
  large := (same_remove h other).large

/-- A property that merging and the free lists keep. -/
structure Kept (env : Env) (C : heap_t → Prop) : Prop where
  add : ∀ h b, C h → C (heap_add_to_free_list h b)
  absorb : ∀ h held x y other l₁ l₂ hd, Mergeable h held x y other l₁ l₂ → (h.header x).allocated = false →
    (h.header y).allocated = false → hd.allocated = false → hd.zeroed = ((h.header x).zeroed && (h.header y).zeroed) →
    C h → C (absorb env h x y other hd)

theorem kept_true : Kept env fun _ => True := ⟨fun _ _ _ => trivial, fun _ _ _ _ _ _ _ _ _ _ _ _ _ _ => trivial⟩

/-! ## The two halves of `_heap_free` -/

/-- What holds of the block between the steps of `_heap_free`. -/
structure Freeing (C : heap_t → Prop) (h : heap_t) (a : Nat) : Prop where
  inv : Inv h (some a)
  mem : a ∈ h.heapList
  free : (h.header a).allocated = false
  small : h.size a ≤ HEAP_LARGE_ALLOC_THRESHOLD
  kept : C h

def NextSettled (h : heap_t) (a : Nat) : Prop :=
  ∀ b, Idle h (some a) b → (h.segment a).stop = b → HEAP_LARGE_ALLOC_THRESHOLD < h.size a + HEADER_SIZE + h.size b

variable {C : heap_t → Prop}

/-- The list head does not pass for a free block after the last one. -/
theorem Inv.not_head (hi : Inv h held) (hl : h.heapList = l₁ ++ [a]) (env : Env) :
    ¬(env.head.allocated = false ∧ a + HEADER_SIZE + h.size a = env.head.addr) := by
  rintro ⟨hfree, hadj⟩
  have hpage := hi.last_page hl
  rw [stop_segment, hadj] at hpage
  exact (env.head.apart hfree).1 hpage

/-- Nor for one before the first one. -/
theorem mergePrev_head (hi : Inv h (some a)) (hl : h.heapList = a :: l₂) : mergePrev env h a none = some (h, a) := by
  refine if_neg ?_
  rintro ⟨hfree, hadj, -⟩
  have hpage := hi.first_page hl
  have := (env.head.apart hfree).2
  simp only [PAGE_SIZE] at hpage this
  omega

theorem Mergeable.nextSettled {n : Nat} (hm : Mergeable h (some a) a n n l₁ l₂)
    (hsize : hd.size = h.size a + HEADER_SIZE + h.size n) : NextSettled (Heap.absorb env h a n n hd) a := by
  intro b hb hadj
  obtain ⟨hb', -⟩ := (hm.idle_iff b).2 hb
  have hba : b ≠ a := fun he => hb.2.2 (congrArg some he.symm)
  rw [hm.stop_eq hsize] at hadj
  have hlarge := hm.inv.coalesced n b hm.idle hb' hadj
  rw [heap_t.size, header_absorb_self, hsize, Inv.size_of_ne header_absorb_eq hba]
  omega

theorem mergeNext_spec (hC : Kept env C) (hf : Freeing C h a) (hl : h.heapList = l₁ ++ a :: l₂) :
    ∃ h₁ l, mergeNext env h a l₂.head? = some h₁ ∧ Freeing C h₁ a ∧ h₁.heapList = l₁ ++ a :: l ∧
      NextSettled h₁ a ∧ Keeps h h₁ := by
  have hi := hf.inv
  cases l₂ with
  | nil =>
    refine ⟨h, [], if_neg fun hno => hi.not_head hl env ⟨hno.1, hno.2.1⟩, hf, hl, fun b hb hadj => ?_, .refl h⟩
    cases hi.next_eq hl hb.1 hadj
  | cons n l₂ =>
    have hn : n ∈ h.heapList := by simp [hl]
    have hna : a ≠ n := by
      rintro rfl
      exact (hi.notMem hl).2 mem_cons_self
    -- Without a merge, an adjacent free block is `n`, and is too large.
    have hstay : ¬ ((h.header n).allocated = false ∧ a + HEADER_SIZE + h.size a = n ∧
        h.size a + HEADER_SIZE + h.size n ≤ HEAP_LARGE_ALLOC_THRESHOLD) → NextSettled h a := by
      intro hno b hb hadj
      obtain rfl := some.inj (hi.next_eq hl hb.1 hadj)
      rw [stop_segment] at hadj
      by_contra hle
      exact hno ⟨hb.2.1, hadj, Nat.le_of_not_lt hle⟩
    simp only [head?_cons, mergeNext]
    split_ifs with h1 h2
    · have hm : Mergeable h (some a) a n n l₁ l₂ :=
        ⟨hi, hl, by rw [stop_segment]; exact h1.2, .inl ⟨rfl, rfl⟩, hn, h1.1, fun he => hna (some.inj he)⟩
      have hsame := (same_remove h n).header
      refine ⟨_, l₂, rfl, ⟨hm.absorb rfl rfl, ?_, ?_, ?_, ?_⟩, hm.heapList, hm.nextSettled rfl,
        hm.keeps hf.free h1.1⟩
      · exact mem_of_eq_append hm.heapList
      · exact congrArg heap_header_t.allocated header_absorb_self
      · exact (congrArg heap_header_t.size header_absorb_self).trans_le h2
      · exact hC.absorb h (some a) a n n l₁ l₂ _ hm hf.free h1.1 rfl (by rw [hsame]) hf.kept
    · exact ⟨h, n :: l₂, rfl, hf, hl, hstay fun hc => h2 hc.2.2, .refl h⟩
    · exact ⟨h, n :: l₂, rfl, hf, hl, hstay fun hc => h1 ⟨hc.1, hc.2.1⟩, .refl h⟩

theorem Mergeable.settled {p : Nat} (hm : Mergeable h (some a) p a p l₁ l₂)
    (hnext : NextSettled h a) (hsize : hd.size = h.size p + HEADER_SIZE + h.size a) :
    Inv.Settled (Heap.absorb env h p a p hd) p := by
  have hold : ∀ b, Idle (Heap.absorb env h p a p hd) (some p) b →
      Idle h (some a) b ∧ (Heap.absorb env h p a p hd).size b = h.size b := by
    intro b hb
    have hbp : b ≠ p := fun he => hb.2.2 (congrArg some he.symm)
    exact ⟨((hm.idle_iff b).2 hb).1, Inv.size_of_ne header_absorb_eq hbp⟩
  have hsizep : (Heap.absorb env h p a p hd).size p = h.size p + HEADER_SIZE + h.size a := by
    rw [heap_t.size, header_absorb_self, hsize]
  constructor
  · intro b hb hadj
    obtain ⟨hb', hs⟩ := hold b hb
    rw [hm.stop_eq hsize] at hadj
    have := hnext b hb' hadj
    rw [hsizep, hs]
    omega
  · intro b hb hadj
    obtain ⟨hb', hs⟩ := hold b hb
    rw [stop_segment, hs, ← stop_segment] at hadj
    have := hm.inv.coalesced b p hb' hm.idle hadj
    rw [hsizep, hs]
    omega

theorem mergePrev_spec (hC : Kept env C) (hf : Freeing C h a) (hl : h.heapList = l₁ ++ a :: l₂)
    (hnext : NextSettled h a) :
    ∃ h₁ c, mergePrev env h a l₁.getLast? = some (h₁, c) ∧ Freeing C h₁ c ∧ Inv.Settled h₁ c ∧ Keeps h h₁ := by
  have hi := hf.inv
  rcases eq_nil_or_concat l₁ with rfl | ⟨l, p, rfl⟩
  · refine ⟨h, a, mergePrev_head hi hl, hf, ⟨hnext, fun b hb hadj => ?_⟩, .refl h⟩
    cases hi.prev_eq hl hb.1 hadj
  · rw [concat_eq_append] at hl ⊢
    have hprev : (l ++ [p]).getLast? = some p := by simp
    have hl' : h.heapList = l ++ p :: a :: l₂ := by rw [hl, append_assoc, singleton_append]
    have hp : p ∈ h.heapList := by simp [hl]
    have hpa : a ≠ p := by
      rintro rfl
      exact (hi.notMem hl).1 (by simp)
    have hstay : ¬ ((h.header p).allocated = false ∧ p + HEADER_SIZE + h.size p = a ∧
        h.size p + HEADER_SIZE + h.size a ≤ HEAP_LARGE_ALLOC_THRESHOLD) → Inv.Settled h a := by
      refine fun hno => ⟨hnext, fun b hb hadj => ?_⟩
      obtain rfl := some.inj (hprev.symm.trans (hi.prev_eq hl hb.1 hadj))
      rw [stop_segment] at hadj
      by_contra hle
      exact hno ⟨hb.2.1, hadj, Nat.le_of_not_lt hle⟩
    rw [hprev]
    simp only [mergePrev]
    split_ifs with h1 h2
    · have hm : Mergeable h (some a) p a p l l₂ :=
        ⟨hi, hl', by rw [stop_segment]; exact h1.2, .inr ⟨rfl, rfl⟩, hp, h1.1, fun he => hpa (some.inj he)⟩
      have hsame := (same_remove h p).header
      refine ⟨_, p, rfl, ⟨hm.absorb rfl rfl, ?_, ?_, ?_, ?_⟩, hm.settled hnext rfl, hm.keeps h1.1 hf.free⟩
      · exact mem_of_eq_append hm.heapList
      · exact congrArg heap_header_t.allocated header_absorb_self
      · exact (congrArg heap_header_t.size header_absorb_self).trans_le h2
      · exact hC.absorb h (some a) p a p l l₂ _ hm h1.1 hf.free rfl (by rw [hsame]) hf.kept
    · exact ⟨h, a, rfl, hf, hstay fun hc => h2 hc.2.2, .refl h⟩
    · exact ⟨h, a, rfl, hf, hstay fun hc => h1 ⟨hc.1, hc.2.1⟩, .refl h⟩

/-- Freeing a held block returns and puts it in a free list. -/
theorem heap_free_rule (hC : Kept env C) (hi : Inv h (some a)) (ha : a ∈ h.heapList)
    (hsmall : h.size a ≤ HEAP_LARGE_ALLOC_THRESHOLD)
    (hkept : C (h.setHeader env a { h.header a with allocated := false })) :
    ∃ h', heap_free env h a = some h' ∧ Inv h' none ∧ C h' ∧
      Keeps (h.setHeader env a { h.header a with allocated := false }) h' := by
  have hmap := hi.unmapped a ha
  obtain ⟨l₁, l₂, hl⟩ := append_of_mem ha
  obtain ⟨h1, h2⟩ := hi.notMem hl
  generalize hclear : h.setHeader env a { h.header a with allocated := false } = h₀ at hkept ⊢
  have hl₀ : h₀.heapList = l₁ ++ a :: l₂ := by rw [← hclear]; exact hl
  have hheader : h₀.header a = { h.header a with allocated := false } := by
    rw [← hclear]
    exact update_self ..
  have hf₀ : Freeing C h₀ a := by
    refine ⟨hclear ▸ hi.setFlags ha rfl hmap, mem_of_eq_append hl₀, ?_, ?_, hkept⟩
    · rw [hheader]
    · rw [heap_t.size, hheader]
      exact hsmall
  obtain ⟨h₁, l, hnext, hf₁, hl₁, hsettled, hk₁⟩ := mergeNext_spec hC hf₀ hl₀
  obtain ⟨h₂, c, hprev, hf₂, hsettled₂, hk₂⟩ := mergePrev_spec hC hf₁ hl₁ hsettled
  refine ⟨heap_add_to_free_list h₂ c, ?_, hf₂.inv.add hf₂.mem hf₂.free hf₂.small hsettled₂,
    hC.add h₂ c hf₂.kept, ?_⟩
  · unfold heap_free
    rw [if_neg (by rw [hmap]; rintro ⟨⟩), if_pos hsmall, hclear]
    simp only [hl₀, listNext_append h1, listPrev_append h1 h2, hnext, hprev, bind_eq_bind, bind_some]
  · have hsame := same_add h₂ c
    refine (hk₁.trans hk₂).trans ⟨fun b hb _ => ?_, hsame.runs, hsame.large⟩
    rw [hsame.heapList, hsame.header]
    exact ⟨hb, rfl⟩

end Patchwork.Heap
