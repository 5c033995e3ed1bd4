import Patchwork.Lib.Runs
import Patchwork.Libstd.HeapFree
/-!
# Allocating, and the heap along runs

`_heap_alloc` takes a free block that is large enough or maps a new run of pages,
and splits off what is too much; `realloc` splits the same way, and merges with the
next block. Each keeps the invariant, and so does every run of them. As for
`heap_free_rule`, the rules carry along a property of the heap: `C none` between
two operations, `D a` while `a` is not split yet, and `C (some a)` when it is ready
to be handed out.
-/

namespace Patchwork.Heap

open List Option Function Lib

variable {env : Env} {h h' : heap_t} {a b n : Nat} {l₁ l₂ : List Nat}

/-! ## The changes -/

/-- The block is split in two. -/
def cutHeap (env : Env) (h : heap_t) (a n : Nat) : heap_t :=
  let hd : heap_header_t :=
    { allocated := false, mapped := false, zeroed := (h.header a).zeroed, size := h.size a - n - HEADER_SIZE }
  let h := h.setHeader env (a + (HEADER_SIZE + n)) hd
  let h := h.setHeader env a { h.header a with size := n }
  { h with heapList := list_append h.heapList a (a + (HEADER_SIZE + n)) }

/-- A run of pages is mapped for a block. -/
def newHeap (env : Env) (h : heap_t) (a len : Nat) (l : List Nat) : heap_t :=
  let h := { h with mem := fun x => if a ≤ x ∧ x < a + len then 0 else h.mem x }
  let h := h.setHeader env a { allocated := false, mapped := false, zeroed := true, size := len - HEADER_SIZE }
  { h with heapList := l, runs := (a, len) :: h.runs }

/-- A size that a block can be split at. -/
structure CanCut (h : heap_t) (a n : Nat) : Prop where
  mem : a ∈ h.heapList
  allocated : (h.header a).allocated = true
  pos : 0 < n
  aligned : n % HEAP_ALIGNMENT = 0
  small : n ≤ HEAP_LARGE_ALLOC_THRESHOLD
  room : n + HEADER_SIZE + HEAP_ALIGNMENT ≤ h.size a
  rest : h.size a ≤ n + HEADER_SIZE + HEAP_LARGE_ALLOC_THRESHOLD

/-- The place of a new block on the list. -/
structure Placed (h : heap_t) (a : Nat) (l l₁ l₂ : List Nat) : Prop where
  old : h.heapList = l₁ ++ l₂
  new : l = l₁ ++ a :: l₂
  below : ∀ b ∈ l₁, b ≤ a
  above : ∀ b ∈ l₂, a < b

structure Carried (env : Env) (C : Option Nat → heap_t → Prop) (D : Nat → heap_t → Prop) : Prop where
  kept : ∀ e, Kept env (C e)
  clear : ∀ e h a, Inv h (some a) → a ∈ h.heapList → e ≠ some a → C e h →
    C e (h.setHeader env a { h.header a with allocated := false })
  pop : ∀ h i l b, C none h → Idle h none b → D b (h.shrunk i l)
  new : ∀ h a len l l₁ l₂, C none h → Inv h none → Fresh h (a, len) → HEADER_SIZE ≤ len → Placed h a l l₁ l₂ →
    D a (newHeap env h a len l)
  take : ∀ h b, Inv h (some b) → b ∈ h.heapList → D b h →
    D b (h.setHeader env b { h.header b with allocated := true })
  ready : ∀ h a, (h.header a).allocated = true → D a h → C (some a) h
  cut : ∀ h a n, Inv h (some a) → CanCut h a n → D a h → C (some a) (cutHeap env h a n)

theorem carried_true : Carried env (fun _ _ => True) fun _ _ => True where
  kept _ := kept_true
  clear _ _ _ _ _ _ _ := trivial
  pop _ _ _ _ _ _ := trivial
  new _ _ _ _ _ _ _ _ _ _ _ := trivial
  take _ _ _ _ _ := trivial
  ready _ _ _ _ := trivial
  cut _ _ _ _ _ _ := trivial

variable {C : Option Nat → heap_t → Prop} {D : Nat → heap_t → Prop}

/-! ## Splitting -/

theorem CanCut.inside (hc : CanCut h a n) : (h.segment a).Contains (a + (HEADER_SIZE + n)) := by
  have := hc.room
  rw [Segment.Contains, stop_segment]
  simp only [heap_t.segment, HEADER_SIZE, HEAP_ALIGNMENT] at *
  omega

theorem rest_ne (a n : Nat) : a ≠ a + (HEADER_SIZE + n) := by
  simp only [HEADER_SIZE]
  omega

section Cut
variable (env)

theorem header_cut_self : (cutHeap env h a n).header a = { h.header a with size := n } := by
  simp only [cutHeap, heap_t.setHeader, update_self, update_of_ne (rest_ne a n)]

theorem header_cut_rest : (cutHeap env h a n).header (a + (HEADER_SIZE + n)) =
    { allocated := false, mapped := false, zeroed := (h.header a).zeroed, size := h.size a - n - HEADER_SIZE } := by
  simp only [cutHeap, heap_t.setHeader, update_of_ne (rest_ne a n).symm, update_self]

theorem header_cut_of_ne (hba : b ≠ a) (hbr : b ≠ a + (HEADER_SIZE + n)) :
    (cutHeap env h a n).header b = h.header b := by
  simp only [cutHeap, heap_t.setHeader, update_of_ne hba, update_of_ne hbr]

theorem heapList_cut (hi : Inv h (some a)) (hl : h.heapList = l₁ ++ a :: l₂) :
    (cutHeap env h a n).heapList = l₁ ++ a :: (a + (HEADER_SIZE + n)) :: l₂ := by
  show list_append h.heapList a (a + (HEADER_SIZE + n)) = _
  rw [hl, list_append_eq (hi.notMem hl).1]

theorem CanCut.rest_notMem (hc : CanCut h a n) (hi : Inv h (some a)) : a + (HEADER_SIZE + n) ∉ h.heapList := by
  intro hmem
  exact rest_ne a n (hi.eq_of_contains hc.mem hmem hc.inside (contains_self h _))

theorem inv_cut (hi : Inv h (some a)) (hc : CanCut h a n) :
    Inv (cutHeap env h a n) (some (a + (HEADER_SIZE + n))) := by
  obtain ⟨l₁, l₂, hl⟩ := append_of_mem hc.mem
  let hd : heap_header_t :=
    { allocated := false, mapped := false, zeroed := (h.header a).zeroed, size := h.size a - n - HEADER_SIZE }
  have hheader : (cutHeap env h a n).header =
      update (update h.header (a + (HEADER_SIZE + n)) hd) a { h.header a with size := n } := by
    simp only [cutHeap, heap_t.setHeader, update_of_ne (rest_ne a n), hd]
  exact hi.cut hl hc.allocated hc.pos hc.aligned hc.small hc.room rfl rfl hheader (heapList_cut env hi hl)
    rfl rfl rfl rfl

theorem heap_block_split_eq (hc : CanCut h a n) :
    heap_block_split env h a n = heap_free env (cutHeap env h a n) (a + (HEADER_SIZE + n)) := by
  have hroom := hc.room
  have hrest := hc.rest
  have hsmall := hc.small
  have hsize : (HEADER_SIZE + h.size a + 2 ^ 64 - (HEADER_SIZE + n) - HEADER_SIZE) % 2 ^ 64 =
      h.size a - n - HEADER_SIZE := by
    simp only [HEADER_SIZE, HEAP_ALIGNMENT, HEAP_LARGE_ALLOC_THRESHOLD, PAGE_SIZE] at *
    omega
  unfold heap_block_split
  rw [if_neg hc.pos.ne', if_pos hc.aligned]
  simp only [hsize]
  rfl

end Cut

/-- What is left of the heap by an operation that hands out or resizes a block. -/
structure Handed (C : Option Nat → heap_t → Prop) (h : heap_t) (a : Nat) (h' : heap_t) : Prop where
  inv : Inv h' none
  carried : C (some a) h'
  mem : a ∈ h'.heapList
  allocated : (h'.header a).allocated = true
  zeroed : (h'.header a).zeroed = (h.header a).zeroed
  others : ∀ b ∈ h.heapList, b ≠ a → (h.header b).allocated = true → b ∈ h'.heapList ∧ h'.header b = h.header b
  large : h'.large = h.large
  runs : h'.runs = h.runs

theorem handed_refl (hi : Inv h none) (ha : a ∈ h.heapList) (hall : (h.header a).allocated = true)
    (hk : C (some a) h) : Handed C h a h :=
  ⟨hi, hk, ha, hall, rfl, fun _ hb _ _ => ⟨hb, rfl⟩, rfl, rfl⟩

/-- What was done before left the other allocated blocks as they were. -/
theorem Handed.before {h₁ : heap_t} (hh : Handed C h₁ a h') (hzeroed : (h₁.header a).zeroed = (h.header a).zeroed)
    (hheader : ∀ b, b ≠ a → h₁.header b = h.header b)
    (hmem : ∀ b ∈ h.heapList, (h.header b).allocated = true → b ∈ h₁.heapList) (hlarge : h₁.large = h.large)
    (hruns : h₁.runs = h.runs) : Handed C h a h' := by
  refine ⟨hh.inv, hh.carried, hh.mem, hh.allocated, hh.zeroed.trans hzeroed, fun b hb hba hall => ?_,
    hh.large.trans hlarge, hh.runs.trans hruns⟩
  have hsame := hheader b hba
  have := hh.others b (hmem b hb hall) hba (hsame ▸ hall)
  rwa [hsame] at this

theorem heap_block_split_rule (hC : Carried env C D) (hi : Inv h (some a)) (hc : CanCut h a n) (hk : D a h) :
    ∃ h', heap_block_split env h a n = some h' ∧ Handed C h a h' ∧ h'.size a = n := by
  have hcut := inv_cut env hi hc
  have heq := heap_block_split_eq env hc
  obtain ⟨l₁, l₂, hl⟩ := append_of_mem hc.mem
  have hlist := heapList_cut env hi hl (n := n)
  have hrest := header_cut_rest env (h := h) (a := a) (n := n)
  have hself := header_cut_self env (h := h) (a := a) (n := n)
  generalize hr : a + (HEADER_SIZE + n) = r at *
  have hra : r ≠ a := hr ▸ (rest_ne a n).symm
  have hmem : r ∈ (cutHeap env h a n).heapList := by simp [hlist]
  have hsmall : (cutHeap env h a n).size r ≤ HEAP_LARGE_ALLOC_THRESHOLD := by
    have hle := hc.rest
    rw [heap_t.size, hrest]
    dsimp only
    omega
  have hne : some a ≠ some r := fun he => hra (some.inj he).symm
  obtain ⟨h', hfree, hinv, hk', hkeeps⟩ := heap_free_rule (hC.kept (some a)) hcut hmem hsmall
    (hC.clear _ _ _ hcut hmem hne (hC.cut h a n hi hc hk))
  -- Only the header of the rest is written once more.
  have hkept : ∀ b ∈ (cutHeap env h a n).heapList, b ≠ r → ((cutHeap env h a n).header b).allocated = true →
      b ∈ h'.heapList ∧ h'.header b = (cutHeap env h a n).header b := by
    intro b hb hbr hall
    have hsame : ((cutHeap env h a n).setHeader env r { (cutHeap env h a n).header r with allocated := false }).header b =
        (cutHeap env h a n).header b := update_of_ne hbr _ _
    have := hkeeps.blocks b hb (hsame ▸ hall)
    rwa [hsame] at this
  obtain ⟨hmema, hheadera⟩ := hkept a (by simp [hlist]) hra.symm (by rw [hself]; exact hc.allocated)
  rw [hself] at hheadera
  refine ⟨h', heq.trans hfree, ⟨hinv, hk', hmema, ?_, ?_, ?_, hkeeps.large, hkeeps.runs⟩, ?_⟩
  · rw [hheadera]
    exact hc.allocated
  · rw [hheadera]
  · intro b hb hba hall
    have hbr : b ≠ r := by
      rintro rfl
      exact hc.rest_notMem hi (hr.symm ▸ hb)
    have hsame : (cutHeap env h a n).header b = h.header b := header_cut_of_ne env hba (hr.symm ▸ hbr)
    have hb' : b ∈ (cutHeap env h a n).heapList := by
      rw [hl] at hb
      rw [hlist]
      simp only [mem_append, mem_cons] at hb ⊢
      tauto
    have := hkept b hb' hbr (hsame ▸ hall)
    rwa [hsame] at this
  · rw [heap_t.size, hheadera]

/-! ## A new block -/

variable {l : List Nat} {held : Option Nat} {size len : Nat}

theorem Inv.sorted (hi : Inv h held) : h.heapList.Pairwise fun a b => a < b := by
  refine (pairwise_map.1 hi.apart).imp ?_
  intro a b hab
  rw [stop_segment] at hab
  simp only [heap_t.segment, HEADER_SIZE] at hab
  omega

/-- Where the new block goes in a sorted list. -/
theorem sorted_split (a : Nat) (hl : l.Pairwise fun a b => a < b) :
    ∃ l₁ l₂, l = l₁ ++ l₂ ∧ (∀ b ∈ l₁, b ≤ a) ∧ ∀ b ∈ l₂, a < b := by
  induction l with
  | nil => exact ⟨[], [], rfl, nofun, nofun⟩
  | cons x l ih =>
    obtain ⟨hx, hl⟩ := pairwise_cons.1 hl
    by_cases hle : x ≤ a
    · obtain ⟨l₁, l₂, rfl, h1, h2⟩ := ih hl
      exact ⟨x :: l₁, l₂, rfl, forall_mem_cons.2 ⟨hle, h1⟩, h2⟩
    · have hgt := Nat.lt_of_not_le hle
      exact ⟨[], x :: l, rfl, nofun, forall_mem_cons.2 ⟨hgt, fun b hb => hgt.trans (hx b hb)⟩⟩

/-! ## The loop over the ring -/

theorem mem_of_listPrev {x y : Nat} (hxy : listPrev l x = some y) : y ∈ l := by
  induction l with
  | nil => cases hxy
  | cons z l ih =>
    cases l with
    | nil => cases hxy
    | cons w l =>
      rw [listPrev] at hxy
      split_ifs at hxy
      · exact some.inj hxy ▸ mem_cons_self
      · exact mem_cons_of_mem z (ih hxy)

/-- The loop passes the blocks above the new one and stops at what is before them. -/
theorem findLast_found {l₃ : List Nat} (fuel : Nat) (hl : (l₁ ++ l₂ ++ l₃).Nodup)
    (hstop : addrOf env l₁.getLast? ≤ a) (habove : ∀ b ∈ l₂, a < b) :
    findLast env (l₁ ++ l₂ ++ l₃) a (l₂.length + fuel + 1) (l₁ ++ l₂).getLast? = some l₁.getLast? := by
  induction l₂ using List.reverseRecOn generalizing l₃ with
  | nil =>
    rw [append_nil]
    exact if_neg (Nat.not_lt_of_le hstop)
  | append_singleton l₂ x ih =>
    have hx : addrOf env (some x) > a := habove x (by simp)
    have hsplit : l₁ ++ (l₂ ++ [x]) ++ l₃ = l₁ ++ l₂ ++ x :: l₃ := by simp
    have hlast : (l₁ ++ (l₂ ++ [x])).getLast? = some x := by simp
    rw [hsplit] at hl ⊢
    have hnot := (nodup_cons.1 (nodup_middle.1 hl)).1
    rw [mem_append, not_or] at hnot
    rw [hlast, length_append, length_singleton, Nat.add_right_comm l₂.length, findLast, if_pos hx, prevOf,
      listPrev_append hnot.1 hnot.2]
    exact ih hl fun b hb => habove b (mem_append_left _ hb)

/-- Where all blocks and the list head are above the new one, it goes round for ever. -/
theorem findLast_never (hall : ∀ b ∈ l, a < b) (hhead : a < env.head.addr) (fuel : Nat) {last : Option Nat}
    (hlast : ∀ b ∈ last, b ∈ l) : findLast env l a fuel last = none := by
  induction fuel generalizing last with
  | zero => rfl
  | succ fuel ih =>
    have hgt : addrOf env last > a := by
      cases last with
      | none => exact hhead
      | some x => exact hall x (hlast x rfl)
    rw [findLast, if_pos hgt]
    refine ih fun b hb => ?_
    cases last with
    | none => exact mem_of_getLast? hb
    | some x => exact mem_of_listPrev hb

/-- The insertion finds the place of the new block, or does not end as there are only blocks above it
and the list head is above it too. -/
theorem insertNew_cases (env : Env) (a : Nat) (hl : l.Pairwise fun a b => a < b) :
    (∃ l₁ l₂, l = l₁ ++ l₂ ∧ (∀ b ∈ l₁, b ≤ a) ∧ (∀ b ∈ l₂, a < b) ∧ (l = [] ∨ addrOf env l₁.getLast? ≤ a) ∧
      insertNew env (l.length + 1) l a = some (l₁ ++ a :: l₂)) ∨
    (l ≠ [] ∧ (∀ b ∈ l, a < b) ∧ a < env.head.addr) ∧ ∀ fuel, insertNew env fuel l a = none := by
  obtain ⟨l₁, l₂, rfl, h1, h2⟩ := sorted_split a hl
  by_cases hnil : l₁ ++ l₂ = []
  · obtain ⟨rfl, rfl⟩ := append_eq_nil_iff.1 hnil
    exact .inl ⟨[], [], rfl, h1, h2, .inl rfl, rfl⟩
  by_cases hstop : addrOf env l₁.getLast? ≤ a
  · refine .inl ⟨l₁, l₂, rfl, h1, h2, .inr hstop, ?_⟩
    have hnodup : (l₁ ++ l₂ ++ []).Nodup := (append_nil (l₁ ++ l₂)).symm ▸ hl.imp Nat.ne_of_lt
    have hfound := findLast_found l₁.length hnodup hstop h2
    rw [append_nil, Nat.add_comm l₂.length, ← length_append] at hfound
    rw [insertNew, if_neg hnil, hfound]
    rcases eq_nil_or_concat l₁ with rfl | ⟨l, b, rfl⟩
    · rfl
    · have hb : b ∉ l := fun hmem =>
        Nat.lt_irrefl b ((pairwise_append.1 (concat_eq_append ▸ (pairwise_append.1 hl).1)).2.2 b hmem b mem_cons_self)
      simp [list_append_eq hb]
  · -- No block is below the new one, as the list head is above it.
    obtain rfl : l₁ = [] := by
      rcases eq_nil_or_concat l₁ with rfl | ⟨l, b, rfl⟩
      · rfl
      · rw [concat_eq_append, getLast?_concat] at hstop
        exact absurd (h1 b (by simp)) hstop
    rw [nil_append] at hnil ⊢
    have hhead : a < env.head.addr := Nat.lt_of_not_le hstop
    refine .inr ⟨⟨hnil, h2, hhead⟩, fun fuel => ?_⟩
    rw [insertNew, if_neg hnil, findLast_never h2 hhead fuel fun b hb => mem_of_getLast? hb]
    rfl

theorem insertNew_placed (hi : Inv h held) (hins : insertNew env (h.heapList.length + 1) h.heapList a = some l) :
    ∃ l₁ l₂, Placed h a l l₁ l₂ := by
  rcases insertNew_cases env a hi.sorted with ⟨l₁, l₂, heq, h1, h2, -, hsome⟩ | ⟨-, hnone⟩
  · exact ⟨l₁, l₂, heq, some.inj (hins.symm.trans hsome), h1, h2⟩
  · rw [hnone] at hins
    cases hins

/-- The insertion ends, with the new block at its place, exactly if there is no block yet,
or one below the new one, or the list head is below it. -/
theorem insertNew_sorted_iff (env : Env) (hl : l.Pairwise fun a b => a < b) (ha : a ∉ l) :
    (∃ fuel l', insertNew env fuel l a = some l' ∧ (l'.Pairwise fun a b => a < b) ∧ l'.Perm (a :: l)) ↔
      l = [] ∨ (∃ b ∈ l, b < a) ∨ env.head.addr ≤ a := by
  rcases insertNew_cases env a hl with ⟨l₁, l₂, rfl, h1, h2, hstop, hsome⟩ | ⟨⟨hne, habove, hhead⟩, hnone⟩
  · obtain ⟨hs1, hs2, hs12⟩ := pairwise_append.1 hl
    have hlt : ∀ b ∈ l₁, b < a := fun b hb => Nat.lt_of_le_of_ne (h1 b hb) fun he => ha (he ▸ mem_append_left _ hb)
    refine iff_of_true ⟨_, _, hsome, ?_, perm_middle⟩ ?_
    · refine pairwise_append.2 ⟨hs1, pairwise_cons.2 ⟨h2, hs2⟩, fun b hb c hc => ?_⟩
      rcases mem_cons.1 hc with rfl | hc
      · exact hlt b hb
      · exact hs12 b hb c hc
    · refine hstop.imp_right fun hstop => ?_
      cases hlast : l₁.getLast? with
      | none =>
        rw [hlast] at hstop
        exact .inr hstop
      | some b =>
        have hb := mem_of_getLast? hlast
        exact .inl ⟨b, mem_append_left _ hb, hlt b hb⟩
  · refine iff_of_false ?_ ?_
    · rintro ⟨fuel, l', hins, -⟩
      rw [hnone] at hins
      cases hins
    · rintro (hnil | ⟨b, hb, hlt⟩ | hle)
      · exact hne hnil
      · exact Nat.lt_asymm hlt (habove b hb)
      · exact Nat.not_lt_of_le hle hhead

/-- The list head of the kernel, above the heap. -/
def kernelEnv : Env where
  head := { addr := 2 ^ 63, allocated := true, size := 0, apart := nofun }
  image := fun _ _ _ => 0

theorem above_inserted : ∃ fuel l', insertNew kernelEnv fuel [4096, 12288] 8192 = some l' ∧
    (l'.Pairwise fun a b => a < b) ∧ l'.Perm [8192, 4096, 12288] :=
  (insertNew_sorted_iff kernelEnv (by decide) (by decide)).2 (.inr (.inl (by decide)))

/-- A block below the only other one is never inserted. -/
theorem below_not_inserted : ¬∃ fuel l', insertNew kernelEnv fuel [8192] 4096 = some l' := by
  rintro ⟨fuel, l', hins⟩
  rw [insertNew, if_neg (by decide), findLast_never (by decide) (by decide) fuel (by decide)] at hins
  cases hins

theorem runLength_spec (hs : size ≤ HEAP_LARGE_ALLOC_THRESHOLD) :
    runLength size % PAGE_SIZE = 0 ∧ HEADER_SIZE + size ≤ runLength size ∧ PAGE_SIZE ≤ runLength size ∧
      runLength size ≤ HEADER_SIZE + size + PAGE_SIZE := by
  refine ⟨Nat.mul_mod_left _ _, ?_⟩
  simp only [runLength, BYTES_TO_PAGES, HEADER_SIZE, HEAP_LARGE_ALLOC_THRESHOLD, PAGE_SIZE] at *
  omega

theorem Fresh.notMem (hfresh : Fresh h (a, len)) (hi : Inv h held) : a ∉ h.heapList := by
  intro hmem
  obtain ⟨r, hr, hra⟩ := hi.mem_run hmem (contains_self h a)
  exact (hfresh.2.2.2.1 r hr).not_both ⟨le_rfl, Nat.lt_add_of_pos_right hfresh.2.1⟩ hra

theorem Placed.mem_new (hp : Placed h a l l₁ l₂) (hb : b ∈ h.heapList) : b ∈ l := by
  rw [hp.old] at hb
  rw [hp.new]
  simp only [mem_append, mem_cons] at hb ⊢
  tauto

theorem inv_new (hi : Inv h none) (hfresh : Fresh h (a, len))
    (hpages : len % PAGE_SIZE = 0) (hp : Placed h a l l₁ l₂) : Inv (newHeap env h a len l) (some a) :=
  hi.insert hp.old hfresh hpages rfl rfl hp.below hp.above rfl hp.new rfl rfl rfl rfl

theorem heap_block_new_rule (hC : Carried env C D) (hi : Inv h none) (hk : C none h) (hpos : 0 < size)
    (hs : size ≤ HEAP_LARGE_ALLOC_THRESHOLD) {answer : Option Nat} {r : heap_t × Option Nat}
    (hr : heap_block_new env h size answer = some r) :
    r = (h, none) ∨ ∃ h' a l l₁ l₂, r = (h', some a) ∧ h' = newHeap env h a (runLength size) l ∧
      Fresh h (a, runLength size) ∧ Placed h a l l₁ l₂ ∧ Inv h' (some a) ∧ D a h' := by
  obtain ⟨hmod, hle, hpage, -⟩ := runLength_spec hs
  unfold heap_block_new at hr
  rw [if_neg hpos.ne'] at hr
  cases answer with
  | none =>
    left
    simp only [heap_map_memory, some.injEq] at hr
    exact hr.symm
  | some a =>
    right
    simp only [heap_map_memory] at hr
    by_cases hfresh : Fresh h (a, runLength size)
    · simp only [if_pos hfresh] at hr
      split at hr
      · cases hr
      · rename_i l hins
        obtain ⟨l₁, l₂, hp⟩ := insertNew_placed hi hins
        exact ⟨_, a, l, l₁, l₂, (some.inj hr).symm, rfl, hfresh, hp, inv_new hi hfresh hmod hp,
          hC.new h a _ l l₁ l₂ hk hi hfresh (le_trans (by decide) hpage) hp⟩
    · simp only [if_neg hfresh] at hr
      cases hr

/-! ## Taking a block -/

/-- A block from which `n` bytes are to be taken. -/
structure CanTake (h : heap_t) (b n : Nat) : Prop where
  mem : b ∈ h.heapList
  pos : 0 < n
  aligned : n % HEAP_ALIGNMENT = 0
  small : n ≤ HEAP_LARGE_ALLOC_THRESHOLD
  enough : n ≤ h.size b
  rest : h.size b ≤ n + HEADER_SIZE + HEAP_LARGE_ALLOC_THRESHOLD
  /-- A block above the threshold is split. -/
  fits : h.size b ≤ HEAP_LARGE_ALLOC_THRESHOLD ∨ n + HEADER_SIZE + HEAP_ALIGNMENT ≤ h.size b

theorem takeBlock_rule (hC : Carried env C D) (hi : Inv h (some b)) (ht : CanTake h b n) (hD : D b h) :
    ∃ h', takeBlock env h b n = some (h', some b) ∧ Handed C h b h' ∧ n ≤ h'.size b := by
  let h₁ := h.setHeader env b { h.header b with allocated := true }
  have hheader : h₁.header b = { h.header b with allocated := true } := update_self ..
  have hsize : h₁.size b = h.size b := by
    rw [heap_t.size, hheader]
    rfl
  have hk : D b h₁ := hC.take h b hi ht.mem hD
  have hi' : Inv h₁ (some b) := hi.setFlags ht.mem rfl (hi.unmapped b ht.mem)
  suffices htaken : ∃ h', takeBlock env h b n = some (h', some b) ∧ Handed C h₁ b h' ∧ n ≤ h'.size b by
    obtain ⟨h', hr, hh, hn⟩ := htaken
    exact ⟨h', hr, hh.before (by rw [hheader]) (fun c hcb => update_of_ne hcb _ _) (fun _ hc _ => hc) rfl rfl, hn⟩
  unfold takeBlock
  dsimp only
  rw [hsize]
  split_ifs with hsplit
  · have hc : CanCut h₁ b n :=
      { mem := ht.mem
        allocated := by rw [hheader]
        pos := ht.pos
        aligned := ht.aligned
        small := ht.small
        room := by rw [hsize]; exact hsplit
        rest := by rw [hsize]; exact ht.rest }
    obtain ⟨h', hr, hh, hn⟩ := heap_block_split_rule hC hi' hc hk
    exact ⟨h', by rw [hr]; rfl, hh, hn.ge⟩
  · have hall : (h₁.header b).allocated = true := by rw [hheader]
    have hs := ht.fits.resolve_right hsplit
    exact ⟨h₁, rfl, handed_refl (hi'.letGo hall (hsize ▸ hs)) ht.mem hall (hC.ready h₁ b hall hk), hsize ▸ ht.enough⟩

theorem bin_index_eq (hpos : 0 < size) (hmul : size % HEAP_ALIGNMENT = 0)
    (hs : size ≤ HEAP_LARGE_ALLOC_THRESHOLD) : heap_get_bin_index size = size / HEAP_ALIGNMENT - 1 := by
  have hge : ¬ size < HEAP_ALIGNMENT := by
    simp only [HEAP_ALIGNMENT] at *
    omega
  rw [heap_get_bin_index, if_neg (Nat.not_lt_of_le hs), if_neg hge]

theorem size_of_bin (hi : Inv h none) (hb : Idle h none b) (hpos : 0 < n) (hn : n % HEAP_ALIGNMENT = 0)
    (hs : n ≤ HEAP_LARGE_ALLOC_THRESHOLD) (hle : heap_get_bin_index n ≤ heap_get_bin_index (h.size b)) :
    n ≤ h.size b := by
  obtain ⟨hpos', hmul⟩ := hi.sizes b hb.1
  rw [bin_index_eq hpos hn hs, bin_index_eq hpos' hmul (hi.small b hb.1 nofun)] at hle
  simp only [HEAP_ALIGNMENT] at *
  omega

/-- A new block is large enough, and is split if it is above the threshold. -/
theorem canTake_new (hmem : a ∈ l₁) (hpos : 0 < n)
    (hn : n % HEAP_ALIGNMENT = 0) (hs : n ≤ HEAP_LARGE_ALLOC_THRESHOLD) :
    CanTake (newHeap env h a (runLength n) l₁) a n := by
  obtain ⟨hmod, hle, hpage, hlt⟩ := runLength_spec hs
  have hsize : (newHeap env h a (runLength n) l₁).size a = runLength n - HEADER_SIZE := by
    simp [heap_t.size, newHeap, heap_t.setHeader]
  refine ⟨hmem, hpos, hn, hs, ?_, ?_, ?_⟩
  · rw [hsize]
    omega
  · rw [hsize]
    simp only [HEADER_SIZE, HEAP_LARGE_ALLOC_THRESHOLD, PAGE_SIZE] at *
    omega
  · rw [hsize]
    simp only [HEADER_SIZE, HEAP_LARGE_ALLOC_THRESHOLD, HEAP_ALIGNMENT, PAGE_SIZE] at *
    omega

/-! ## Large blocks -/

/-- Memory is mapped for a block of its own. -/
def largeHeap (env : Env) (h : heap_t) (a len : Nat) : heap_t :=
  let h := { h with mem := fun x => if a ≤ x ∧ x < a + len then 0 else h.mem x }
  let h := h.setHeader env a { allocated := true, mapped := true, zeroed := true, size := len - HEADER_SIZE }
  { h with large := a :: h.large }

theorem inv_large (hi : Inv h none) (hfresh : Fresh h (a, len)) (hlen : HEADER_SIZE ≤ len) :
    Inv (largeHeap env h a len) none := by
  have hanot := hfresh.notMem hi
  obtain ⟨-, -, -, hruns, -⟩ := hfresh
  have hheader : (largeHeap env h a len).header = update h.header a
      { allocated := true, mapped := true, zeroed := true, size := len - HEADER_SIZE } := rfl
  have hsega : (largeHeap env h a len).segment a = (a, len) := by
    rw [heap_t.segment, heap_t.size, hheader, update_self]
    rw [Nat.add_sub_of_le hlen]
  refine hi.frame rfl rfl rfl rfl (fun b hb => ?_) (fun b hb => ?_) fun b hb r hr => ?_
  · have hba : b ≠ a := fun he => hanot (he ▸ hb)
    rw [hheader, update_of_ne hba]
  · by_cases hba : b = a
    · rw [hba, hheader, update_self]
    · rw [hheader, update_of_ne hba]
      exact hi.mapped b ((mem_cons.1 hb).resolve_left hba)
  · by_cases hba : b = a
    · rw [hba, hsega]
      exact hruns r hr
    · rw [Inv.segment_of_ne hheader hba]
      exact hi.outside b ((mem_cons.1 hb).resolve_left hba) r hr

/-! ## `_heap_alloc` -/

/-- A block that a caller has. -/
def Live (h : heap_t) (a : Nat) : Prop := a ∈ h.large ∨ a ∈ h.heapList ∧ (h.header a).allocated = true

instance (h : heap_t) (a : Nat) : Decidable (Live h a) := inferInstanceAs (Decidable (_ ∨ _ ∧ _))

theorem Fresh.not_live (hfresh : Fresh h (a, len)) (hi : Inv h held) : ¬Live h a := by
  rintro (hl | ⟨hl, -⟩)
  · exact (hfresh.2.2.2.2 a hl).not_both ⟨Nat.le_refl a, Nat.lt_add_of_pos_right hfresh.2.1⟩ (contains_self h a)
  · exact hfresh.notMem hi hl

theorem Idle.not_live (hidle : Idle h held b) (hi : Inv h held) : ¬Live h b := by
  rintro (hl | ⟨-, hall⟩)
  · exact hi.notMem_large hidle.1 (contains_self h b) hl
  · rw [hidle.2.1] at hall
    cases hall

/-- What `_heap_alloc` can do. -/
inductive Allocated (env : Env) (C : Option Nat → heap_t → Prop) (h : heap_t) (size : Nat) :
    heap_t × Option Nat → Prop
  | null : Allocated env C h size (h, none)
  | small (h₀ h' : heap_t) (a : Nat) (hs : size ≤ HEAP_LARGE_ALLOC_THRESHOLD) (hh : Handed C h₀ a h')
      (hsize : size ≤ h'.size a) (hlarge : h'.large = h.large)
      (hothers : ∀ b ∈ h.heapList, (h.header b).allocated = true → b ∈ h'.heapList ∧ (h'.header b).allocated = true) :
      Allocated env C h size (h', some a)
  | large (a : Nat) (hs : HEAP_LARGE_ALLOC_THRESHOLD < size) (hfresh : Fresh h (a, largeLength size)) :
      Allocated env C h size (largeHeap env h a (largeLength size), some a)

theorem round_up_spec (hpos : 0 < size) (hs : size ≤ HEAP_LARGE_ALLOC_THRESHOLD) :
    0 < ROUND_UP size HEAP_ALIGNMENT ∧ ROUND_UP size HEAP_ALIGNMENT % HEAP_ALIGNMENT = 0 ∧
      ROUND_UP size HEAP_ALIGNMENT ≤ HEAP_LARGE_ALLOC_THRESHOLD ∧ size ≤ ROUND_UP size HEAP_ALIGNMENT := by
  simp only [ROUND_UP, HEAP_ALIGNMENT, HEAP_LARGE_ALLOC_THRESHOLD, PAGE_SIZE] at *
  omega

theorem largeLength_ge (h0 : 0 < largeLength size) : HEADER_SIZE ≤ largeLength size := by
  simp only [largeLength, HEADER_SIZE, PAGE_SIZE] at *
  omega

theorem heap_alloc_rule (hC : Carried env C D) (hi : Inv h none) (hk : C none h) {answer : Option Nat}
    {r : heap_t × Option Nat} (hr : heap_alloc env h size answer = some r) :
    Allocated env C h size r ∧ ∀ a, r.2 = some a → ¬Live h a := by
  unfold heap_alloc at hr
  split_ifs at hr with hzero hlarge
  · cases hr
    exact ⟨.null, by rintro _ ⟨⟩⟩
  · cases answer with
    | none =>
      simp only [heap_map_memory, some.injEq] at hr
      rw [← hr]
      exact ⟨.null, by rintro _ ⟨⟩⟩
    | some a =>
      by_cases hfresh : Fresh h (a, largeLength size)
      · have hge := largeLength_ge hfresh.2.1
        have hstop : a + largeLength size < 2 ^ 64 := hfresh.2.2.1
        have hsize : (largeLength size + 2 ^ 64 - HEADER_SIZE) % 2 ^ 64 = largeLength size - HEADER_SIZE := by
          simp only [HEADER_SIZE] at hge ⊢
          omega
        simp only [heap_map_memory, if_pos hfresh, hsize, some.injEq] at hr
        rw [← hr]
        exact ⟨.large a hlarge hfresh, fun _ he => some.inj he ▸ hfresh.not_live hi⟩
      · simp only [heap_map_memory, if_neg hfresh] at hr
        cases hr
  · have hs := Nat.le_of_not_lt hlarge
    obtain ⟨hpos, hmul, hle, hup⟩ := round_up_spec (Nat.pos_of_ne_zero hzero) hs
    generalize ROUND_UP size HEAP_ALIGNMENT = n at hpos hmul hle hup hr
    dsimp only at hr
    rcases hi.bins.pop (heap_get_bin_index n) with hpop | ⟨b, i, l, hpop, hidle, hindex, hbins⟩
    · rw [hpop] at hr
      dsimp only at hr
      cases hnew : heap_block_new env h n answer with
      | none =>
        rw [hnew] at hr
        cases hr
      | some r' =>
        rw [hnew] at hr
        rcases heap_block_new_rule hC hi hk hpos hle hnew with rfl | ⟨h', a, l, l₁, l₂, rfl, rfl, hfresh, hp, hi', hD⟩
        · cases hr
          exact ⟨.null, by rintro _ ⟨⟩⟩
        · have hmem : a ∈ l := by simp [hp.new]
          obtain ⟨h', htake, hh, hn⟩ := takeBlock_rule hC hi' (canTake_new hmem hpos hmul hle) hD
          rw [some.inj (hr.symm.trans htake)]
          have hnew := hfresh.not_live hi
          refine ⟨.small _ h' a hs hh (hup.trans hn) hh.large fun b hb hall => ?_, fun _ he => some.inj he ▸ hnew⟩
          have hba : b ≠ a := fun he => hnew (he ▸ .inr ⟨hb, hall⟩)
          have hsame : (newHeap env h a (runLength n) l).header b = h.header b := update_of_ne hba _ _
          obtain ⟨hb', heq⟩ := hh.others b (hp.mem_new hb) hba (hsame ▸ hall)
          exact ⟨hb', by rw [heq, hsame]; exact hall⟩
    · rw [hpop] at hr
      have hsmall := hi.small b hidle.1 (by rintro ⟨⟩)
      have ht : CanTake (h.shrunk i l) b n :=
        { mem := hidle.1
          pos := hpos
          aligned := hmul
          small := hle
          enough := show n ≤ h.size b from size_of_bin hi hidle hpos hmul hle hindex
          rest := hsmall.trans (Nat.le_add_left _ _)
          fits := .inl hsmall }
      obtain ⟨h', htake, hh, hn⟩ := takeBlock_rule hC (hi.take hbins) ht (hC.pop h i l b hk hidle)
      rw [some.inj (hr.symm.trans htake)]
      have hnew := hidle.not_live hi
      refine ⟨.small _ h' b hs hh (hup.trans hn) hh.large fun c hc hall => ?_, fun _ he => some.inj he ▸ hnew⟩
      have hcb : c ≠ b := fun he => hnew (he ▸ .inr ⟨hc, hall⟩)
      obtain ⟨hc', heq⟩ := hh.others c hc hcb hall
      exact ⟨hc', by rw [heq]; exact hall⟩

/-! ## `realloc` -/

section
variable (hC : Carried env C D) (hall : (h.header a).allocated = true)
include hC hall

theorem trim_rule (hi : Inv h (some a)) (ha : a ∈ h.heapList) (hsmall : h.size a ≤ HEAP_LARGE_ALLOC_THRESHOLD)
    (hmul : n % HEAP_ALIGNMENT = 0) (hle : n ≤ h.size a) (hk : D a h) :
    ∃ h', trim env h a n = some h' ∧ Handed C h a h' ∧ n ≤ h'.size a := by
  have hstay : Handed C h a h := handed_refl (hi.letGo hall hsmall) ha hall (hC.ready h a hall hk)
  unfold trim
  split_ifs with hroom
  · rcases Nat.eq_zero_or_pos n with rfl | hpos
    · exact ⟨h, if_pos rfl, hstay, Nat.zero_le _⟩
    · have hc : CanCut h a n :=
        { mem := ha
          allocated := hall
          pos := hpos
          aligned := hmul
          small := hle.trans hsmall
          room := by
            rw [ge_iff_le, Nat.le_sub_iff_add_le hle] at hroom
            omega
          rest := hsmall.trans (Nat.le_add_left _ _) }
      obtain ⟨h', hr, hh, hn⟩ := heap_block_split_rule hC hi hc hk
      exact ⟨h', hr, hh, hn.ge⟩
  · exact ⟨h, rfl, hstay, hle⟩

variable (hgrow : ∀ n l₁ l₂ hd, Mergeable h (some a) a n n l₁ l₂ → hd.allocated = true →
  hd.zeroed = (h.header a).zeroed → D a (absorb env h a n n hd)) (hi : Inv h none) (hk : D a h)
include hgrow hi hk

theorem grow_rule (hl : h.heapList = l₁ ++ a :: l₂) (hmul : n % HEAP_ALIGNMENT = 0) :
    ∃ r, grow env h a n l₂.head? = some r ∧ Handed C h a r.1 ∧ (r.2 = true → n ≤ r.1.size a) := by
  have ha : a ∈ h.heapList := mem_of_eq_append hl
  have hstay : Handed C h a h := handed_refl hi ha hall (hC.ready h a hall hk)
  cases l₂ with
  | nil =>
    exact ⟨(h, false), if_neg fun hno => hi.not_head hl env ⟨hno.1, hno.2.1⟩, hstay, nofun⟩
  | cons next l₂ =>
    have hnext : next ∈ h.heapList := by simp [hl]
    have hna : a ≠ next := by
      rintro rfl
      exact (hi.notMem hl).2 mem_cons_self
    simp only [head?_cons, grow]
    split_ifs with hmerge hmapped
    · rw [hi.unmapped next hnext] at hmapped
      cases hmapped
    · obtain ⟨hfree, hadj, hge, hle⟩ := hmerge
      have hm : Mergeable h (some a) a next next l₁ l₂ :=
        ⟨hi.hold hall, hl, by rw [stop_segment]; exact hadj, .inl ⟨rfl, rfl⟩, hnext, hfree,
          fun he => hna (some.inj he)⟩
      have hsame := same_remove h next
      let hd : heap_header_t := { h.header a with size := h.size a + HEADER_SIZE + h.size next }
      have hself : (absorb env h a next next hd).header a = hd := header_absorb_self
      have hsize : (absorb env h a next next hd).size a = h.size a + HEADER_SIZE + h.size next := by
        rw [heap_t.size, hself]
      have hinv : Inv (absorb env h a next next hd) (some a) := hm.absorb rfl (hi.unmapped a ha)
      obtain ⟨h', hr, hh, hn⟩ := trim_rule hC (by rw [hself]; exact hall) hinv (mem_of_eq_append hm.heapList)
        (hsize ▸ hle) hmul (hsize ▸ hge) (hgrow next l₁ l₂ hd hm hall rfl)
      refine ⟨(h', true), ?_, hh.before (by rw [hself]) header_absorb (fun b hb hallb => ?_) hsame.large hsame.runs,
        fun _ => hn⟩
      · rw [hsame.header]
        show (trim env (absorb env h a next next hd) a n).map _ = _
        rw [hr]
        rfl
      · refine (hm.mem_list.1 hb).resolve_right ?_
        rintro rfl
        rw [hfree] at hallb
        cases hallb
    · exact ⟨(h, false), rfl, hstay, nofun⟩

theorem realloc_rule (ha : a ∈ h.heapList) (size : Nat) :
    ∃ r, reallocInPlace env h a size = some r ∧ Handed C h a r.1 ∧
      (r.2 = true → ROUND_UP size HEAP_ALIGNMENT ≤ r.1.size a) := by
  have hmul : ROUND_UP size HEAP_ALIGNMENT % HEAP_ALIGNMENT = 0 := Nat.mul_mod_left _ _
  obtain ⟨l₁, l₂, hl⟩ := append_of_mem ha
  unfold reallocInPlace
  rw [if_neg (by rw [hi.unmapped a ha]; exact nofun)]
  generalize ROUND_UP size HEAP_ALIGNMENT = n at hmul ⊢
  split_ifs with hless hmore
  · obtain ⟨h', hr, hh, hn⟩ := trim_rule hC hall (hi.hold hall) ha (hi.small a ha nofun) hmul hless.le hk
    exact ⟨(h', true), by rw [hr]; rfl, hh, fun _ => hn⟩
  · have hnext : listNext h.heapList a = l₂.head? := by rw [hl, listNext_append (hi.notMem hl).1]
    rw [hnext]
    exact grow_rule hC hall hgrow hi hk hl hmul
  · exact ⟨(h, false), rfl, handed_refl hi ha hall (hC.ready h a hall hk), nofun⟩

end

/-! ## Runs -/

/-- The calls on the heap, with the answer of `_heap_map_memory`. -/
inductive Action where
  | alloc (size : Nat) (answer : Option Nat)
  | free (block : Nat)
  | realloc (block size : Nat)
deriving Repr, DecidableEq

def step (env : Env) (h : heap_t) : Action → Option heap_t
  | .alloc size answer => (heap_alloc env h size answer).map Prod.fst
  | .free block => if Live h block then heap_free env h block else none
  | .realloc block size => if Live h block then (reallocInPlace env h block size).map Prod.fst else none

/-- The heap after `_heap_init`, over any memory. -/
def init (mem : Nat → UInt8) : heap_t where
  header := fun _ => { allocated := false, mapped := false, zeroed := false, size := 0 }
  heapList := []
  freeLists := fun _ => []
  freeBitmap := BITMAP_CREATE_ZERO HEAP_NUM_BINS
  mem := mem
  runs := []
  large := []

theorem inv_init (mem : Nat → UInt8) : Inv (init mem) none where
  apart := List.Pairwise.nil
  tile x := Iff.rfl
  sizes b hb := nomatch hb
  small b hb := nomatch hb
  unmapped b hb := nomatch hb
  bins :=
    { mem := fun i b => ⟨nofun, fun hb => nomatch hb.1.1⟩
      small := fun b hb => nomatch hb.1
      nodup := fun _ => nodup_nil
      length := rfl
      bits := fun i _ => by simp [init, BITMAP_CREATE_ZERO, bitmap_t.bit] }
  coalesced a b ha := nomatch ha.1
  pages r hr := nomatch hr
  mapped b hb := nomatch hb
  outside b hb := nomatch hb

theorem free_large (hi : Inv h none) (ha : a ∈ h.large) (hr : heap_free env h a = some h') :
    h' = { h with large := h.large.erase a } := by
  rw [heap_free, if_pos (hi.mapped a ha)] at hr
  split_ifs at hr
  exact (some.inj hr).symm

theorem inv_free_large (hi : Inv h none) : Inv { h with large := h.large.erase a } none :=
  hi.frame rfl rfl rfl rfl (fun _ _ => rfl) (fun b hb => hi.mapped b (mem_of_mem_erase hb))
    fun b hb => hi.outside b (mem_of_mem_erase hb)

theorem inv_step {x : Action} (hi : Inv h none) (hs : step env h x = some h') : Inv h' none := by
  cases x with
  | alloc size answer =>
    obtain ⟨r, hr, rfl⟩ := map_eq_some_iff.1 hs
    cases (heap_alloc_rule carried_true hi trivial hr).1 with
    | null => exact hi
    | small h₀ h' a _ hh _ _ _ => exact hh.inv
    | large a _ hfresh => exact inv_large hi hfresh (largeLength_ge hfresh.2.1)
  | free block =>
    simp only [step] at hs
    split_ifs at hs with hlive
    rcases hlive with hlarge | ⟨hmem, hall⟩
    · rw [free_large hi hlarge hs]
      exact inv_free_large hi
    · obtain ⟨h₁, hr, hinv, -⟩ := heap_free_rule kept_true (hi.hold hall) hmem (hi.small block hmem nofun) trivial
      rw [some.inj (hs.symm.trans hr)]
      exact hinv
  | realloc block size =>
    simp only [step] at hs
    split_ifs at hs with hlive
    obtain ⟨r, hr, rfl⟩ := map_eq_some_iff.1 hs
    rcases hlive with hlarge | ⟨hmem, hall⟩
    · rw [reallocInPlace, if_pos (hi.mapped block hlarge)] at hr
      cases hr
      exact hi
    · obtain ⟨r', hr', hh, -⟩ := realloc_rule carried_true hall (fun _ _ _ _ _ _ _ => trivial) hi trivial hmem size
      rw [some.inj (hr.symm.trans hr')]
      exact hh.inv

/-- The structure of the heap between two calls. -/
structure Sound (h : heap_t) : Prop where
  disjoint : h.heapList.Pairwise fun a b => a + HEADER_SIZE + h.size a ≤ b
  tile : ∀ x, (∃ a ∈ h.heapList, a ≤ x ∧ x < a + HEADER_SIZE + h.size a) ↔
    ∃ r ∈ h.runs, r.1 ≤ x ∧ x < r.1 + r.2
  sizes : ∀ a ∈ h.heapList, 0 < h.size a ∧ h.size a % 64 = 0 ∧ h.size a ≤ HEAP_LARGE_ALLOC_THRESHOLD
  unmapped : ∀ a ∈ h.heapList, (h.header a).mapped = false
  free : ∀ a ∈ h.heapList, (h.header a).allocated = false → ∀ i, a ∈ h.freeLists i ↔ i = h.size a / 64 - 1
  allocated : ∀ a ∈ h.heapList, (h.header a).allocated = true → ∀ i, a ∉ h.freeLists i
  blocks : ∀ i, ∀ a ∈ h.freeLists i, a ∈ h.heapList
  once : ∀ i, (h.freeLists i).Nodup
  bitmap : ∀ i < HEAP_NUM_BINS, h.freeBitmap.bit i = true ↔ h.freeLists i ≠ []
  coalesced : ∀ a ∈ h.heapList, ∀ b ∈ h.heapList, (h.header a).allocated = false → (h.header b).allocated = false →
    a + HEADER_SIZE + h.size a = b → HEAP_LARGE_ALLOC_THRESHOLD < h.size a + HEADER_SIZE + h.size b

theorem Inv.sound (hi : Inv h none) : Sound h where
  disjoint := by
    refine (pairwise_map.1 hi.apart).imp fun {a b} hab => ?_
    rw [stop_segment] at hab
    exact hab
  tile x := by
    have := hi.tile x
    simp only [Covers, heap_t.segments, List.mem_map, exists_exists_and_eq_and, Segment.Contains, stop_segment] at this
    exact this
  sizes a ha := ⟨(hi.sizes a ha).1, (hi.sizes a ha).2, hi.small a ha nofun⟩
  unmapped := hi.unmapped
  free a ha hfree i := by
    obtain ⟨hpos, hmul⟩ := hi.sizes a ha
    rw [hi.bins.mem, bin_index_eq hpos hmul (hi.small a ha nofun)]
    exact ⟨fun h => h.2.symm, fun h => ⟨⟨ha, hfree, nofun⟩, h.symm⟩⟩
  allocated a _ hall i hmem := by
    rw [((hi.bins.mem i a).1 hmem).1.2.1] at hall
    cases hall
  blocks i a hmem := ((hi.bins.mem i a).1 hmem).1.1
  once := hi.bins.nodup
  bitmap := hi.bins.bits
  coalesced a ha b hb hfa hfb hadj :=
    hi.coalesced a b ⟨ha, hfa, nofun⟩ ⟨hb, hfb, nofun⟩ (by rw [stop_segment]; exact hadj)

/-- Along every run of `_heap_alloc`, `_heap_free` and the resizing of `realloc`,
over any memory and with any fresh runs of pages, the heap is sound in every
state. -/
theorem heap_always_sound (env : Env) (mem : Nat → UInt8) (as : List Action) :
    Always (step env) Sound (init mem) as :=
  (always_of_step (fun _ _ _ hi hs => inv_step hi hs) (inv_init mem) as).mono fun _ => Inv.sound

end Patchwork.Heap
