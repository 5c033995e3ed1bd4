import Patchwork.Mem.Pmm
/-!
# The set of free pages

The stack kept in free pages is a list: `pmm_stack_push` puts a page in front,
`pmm_stack_pop` takes the first one. A page that holds the numbers of others is
itself on the list, behind them. Only the memory of listed pages matters, so a
page that is not free may be written at will.

The stack and the clear bits of the bitmap together stand for a set of pages,
those from `BITMAP_PAGES` on in the stack and those below in the bitmap. Each
function that takes pages or gives them back is an operation on that set, and
leaves the references and `avail` to its caller.
-/

namespace Patchwork.Pmm

open List Function

/-! ## The stack -/

/-- The pages that are full, from `top` on. -/
inductive Chain (memory : Nat → page_stack_t) : Option Nat → List Nat → Prop
  | nil : Chain memory none []
  | cons {top : Nat} {l : List Nat} : Chain memory (memory top).next l →
    Chain memory (some top) ((List.range FREE_PAGE_MAX).map (memory top).pages ++ top :: l)

/-- The entries of a page from `location` on. -/
def entries (page : page_stack_t) (location : Nat) : List Nat :=
  (List.range' location (FREE_PAGE_MAX - location)).map page.pages

/-- The stack holds the pages `l`, the first one on top. -/
def StackHolds (s : State) (l : List Nat) : Prop :=
  match s.stack with
  | none => s.location = FREE_PAGE_MAX ∧ l = []
  | some top =>
    s.location ≤ FREE_PAGE_MAX ∧
      ∃ rest, Chain s.memory (s.memory top).next rest ∧ l = entries (s.memory top) s.location ++ top :: rest

variable {l : List Nat}

theorem Chain.congr {memory memory' : Nat → page_stack_t} {top : Option Nat} (h : Chain memory top l)
    (heq : ∀ p ∈ l, memory' p = memory p) : Chain memory' top l := by
  induction h with
  | nil => exact .nil
  | @cons top l _ ih =>
    have htop : memory' top = memory top := heq top (by simp)
    have := @Chain.cons memory' top l (htop ▸ ih fun p hp => heq p (by simp [hp]))
    rwa [htop] at this

variable {s : State}

theorem StackHolds.congr {s' : State} (h : StackHolds s l) (hstack : s'.stack = s.stack)
    (hloc : s'.location = s.location) (heq : ∀ p ∈ l, s'.memory p = s.memory p) : StackHolds s' l := by
  unfold StackHolds at h ⊢
  rw [hstack, hloc]
  cases hs : s.stack with
  | none =>
    rw [hs] at h
    exact h
  | some top =>
    rw [hs] at h
    obtain ⟨hle, rest, hrest, rfl⟩ := h
    have htop : s'.memory top = s.memory top := heq top (by simp)
    refine ⟨hle, rest, ?_, by rw [htop]⟩
    rw [htop]
    exact hrest.congr fun p hp => heq p (by simp [hp])

theorem entries_zero (page : page_stack_t) : entries page 0 = (List.range FREE_PAGE_MAX).map page.pages := by
  rw [entries, Nat.sub_zero, range_eq_range']

theorem entries_max (page : page_stack_t) : entries page FREE_PAGE_MAX = [] := by
  simp [entries]

theorem entries_step {page : page_stack_t} {location : Nat} (h : location < FREE_PAGE_MAX) :
    entries page location = page.pages location :: entries page (location + 1) := by
  unfold entries
  rw [show FREE_PAGE_MAX - location = FREE_PAGE_MAX - (location + 1) + 1 by omega, range'_succ, map_cons]

/-- The stack as a chain, when the page on top is full or there is none. -/
theorem StackHolds.chain (h : StackHolds s l) (h0 : s.stack = none ∨ s.location = 0) : Chain s.memory s.stack l := by
  unfold StackHolds at h
  cases hs : s.stack with
  | none =>
    rw [hs] at h
    rw [h.2]
    exact .nil
  | some top =>
    rw [hs] at h h0
    obtain ⟨-, rest, hrest, rfl⟩ := h
    rw [h0.resolve_left (Option.some_ne_none _), entries_zero]
    exact .cons hrest

theorem stack_push_holds {pfn : Nat} (h : StackHolds s l) (hnd : l.Nodup) (hpfn : pfn ∉ l) :
    StackHolds (pmm_stack_push s pfn) (pfn :: l) := by
  -- A new page on top, empty, over a chain.
  have hnew : Chain s.memory s.stack l →
      StackHolds { s with
        memory := update s.memory pfn { s.memory pfn with next := s.stack }
        stack := some pfn
        location := FREE_PAGE_MAX } (pfn :: l) := by
    intro hc
    refine ⟨Nat.le_refl _, l, ?_, by rw [entries_max]; rfl⟩
    simp only [update_self]
    exact hc.congr fun p hp => update_of_ne (fun he : p = pfn => hpfn (he ▸ hp)) _ _
  unfold pmm_stack_push
  cases hs : s.stack with
  | none =>
    have := hnew (h.chain (.inl hs))
    rwa [hs] at this
  | some top =>
    dsimp only
    split
    · rename_i h0
      have := hnew (h.chain (.inr h0))
      rwa [hs] at this
    · rename_i h0
      unfold StackHolds at h
      rw [hs] at h
      obtain ⟨hle, rest, hrest, rfl⟩ := h
      have htop : top ∉ rest := by
        have := (nodup_append.1 hnd).2.1
        exact (nodup_cons.1 this).1
      unfold StackHolds
      simp only [update_self]
      refine ⟨by omega, rest, hrest.congr fun p hp => update_of_ne (fun he : p = top => htop (he ▸ hp)) _ _, ?_⟩
      rw [entries_step (show s.location - 1 < FREE_PAGE_MAX by omega), show s.location - 1 + 1 = s.location by omega]
      simp only [update_self, cons_append]
      congr 2
      refine map_congr_left fun i hi => ?_
      rw [mem_range'_1] at hi
      exact (update_of_ne (by omega) _ _).symm

theorem stack_pop_empty (h : StackHolds s []) : pmm_stack_pop s = (none, s) := by
  unfold StackHolds at h
  cases hs : s.stack with
  | none =>
    rw [hs] at h
    simp [pmm_stack_pop, h.1, hs]
  | some top =>
    rw [hs] at h
    obtain ⟨-, rest, -, hl⟩ := h
    simp at hl

theorem stack_pop_holds {p : Nat} (h : StackHolds s (p :: l)) :
    ∃ s', pmm_stack_pop s = (pfnOf p, s') ∧ StackHolds s' l ∧
      s' = { s with stack := s'.stack, location := s'.location } := by
  unfold StackHolds at h
  cases hs : s.stack with
  | none =>
    rw [hs] at h
    cases h.2
  | some top =>
    rw [hs] at h
    obtain ⟨hle, rest, hrest, hl⟩ := h
    rcases Nat.lt_or_ge s.location FREE_PAGE_MAX with hlt | hge
    · rw [entries_step hlt, cons_append] at hl
      obtain ⟨rfl, rfl⟩ := List.cons.inj hl
      refine ⟨{ s with location := s.location + 1 }, ?_, ?_, rfl⟩
      · simp [pmm_stack_pop, Nat.ne_of_lt hlt, hs]
      · unfold StackHolds
        simp only [hs]
        exact ⟨hlt, rest, hrest, rfl⟩
    · -- Every entry is taken: the page itself is next.
      have hmax : s.location = FREE_PAGE_MAX := by omega
      rw [hmax, entries_max, nil_append] at hl
      obtain ⟨rfl, rfl⟩ := List.cons.inj hl
      refine ⟨{ s with stack := (s.memory p).next
                       location := if (s.memory p).next = none then FREE_PAGE_MAX else 0 }, ?_, ?_, rfl⟩
      · simp [pmm_stack_pop, hmax, hs]
      · unfold StackHolds
        generalize (s.memory p).next = next at hrest ⊢
        cases hrest with
        | nil => exact ⟨rfl, rfl⟩
        | cons h2 => exact ⟨Nat.zero_le _, _, h2, by rw [if_neg (Option.some_ne_none _), entries_zero]⟩

/-! ## The stack and the bitmap -/

/-- The free pages are `F`, each held once. -/
structure Holds (s : State) (F : Finset Nat) : Prop where
  stack : ∃ l, StackHolds s l ∧ l.Nodup ∧ ∀ p, p ∈ l ↔ p ∈ F ∧ BITMAP_PAGES ≤ p
  length : s.bitmap.length = BITMAP_PAGES
  bits : ∀ p < BITMAP_PAGES, s.bitmap.bit p = false ↔ p ∈ F

/-- Nothing but the stack and the bitmap has changed. -/
structure OnlyFree (s s' : State) : Prop where
  ref : s'.ref = s.ref
  avail : s'.avail = s.avail
  failed : s'.failed = s.failed

theorem OnlyFree.trans {s₁ s₂ s₃ : State} (h₁ : OnlyFree s₁ s₂) (h₂ : OnlyFree s₂ s₃) : OnlyFree s₁ s₃ :=
  ⟨h₂.ref.trans h₁.ref, h₂.avail.trans h₁.avail, h₂.failed.trans h₁.failed⟩

variable {s' : State} {F : Finset Nat}

/-- The references, `avail` and the asserts do not matter. -/
theorem Holds.congr (h : Holds s F) (hstack : s'.stack = s.stack)
    (hloc : s'.location = s.location) (hmem : s'.memory = s.memory) (hmap : s'.bitmap = s.bitmap) : Holds s' F := by
  obtain ⟨l, hl, hnd, hm⟩ := h.stack
  refine ⟨⟨l, hl.congr hstack hloc fun p _ => by rw [hmem], hnd, hm⟩, ?_, ?_⟩
  · rw [hmap]
    exact h.length
  · rw [hmap]
    exact h.bits

theorem BITMAP_PAGES_eq : BITMAP_PAGES = 16384 := rfl

/-! ## Giving pages back -/

theorem giveBack_onlyFree (s : State) (p : Nat) : OnlyFree s (giveBack s p) := by
  unfold giveBack pmm_stack_push pmm_bitmap_clear
  split
  · split
    · split <;> exact ⟨rfl, rfl, rfl⟩
    · exact ⟨rfl, rfl, rfl⟩
  · exact ⟨rfl, rfl, rfl⟩

theorem giveBack_holds (h : Holds s F) {p : Nat} (hp : BITMAP_PAGES ≤ p → p ∉ F) : Holds (giveBack s p) (insert p F) := by
  obtain ⟨l, hl, hnd, hm⟩ := h.stack
  unfold giveBack
  split
  · rename_i hge
    have hpl : p ∉ l := fun hmem => hp hge ((hm p).1 hmem).1
    have hmap : (pmm_stack_push s p).bitmap = s.bitmap := by
      unfold pmm_stack_push
      split
      · split <;> rfl
      · rfl
    refine ⟨⟨p :: l, stack_push_holds hl hnd hpl, nodup_cons.2 ⟨hpl, hnd⟩, fun q => ?_⟩, ?_, fun q hq => ?_⟩
    · rw [mem_cons, Finset.mem_insert, hm q]
      constructor
      · rintro (rfl | ⟨h1, h2⟩)
        · exact ⟨.inl rfl, hge⟩
        · exact ⟨.inr h1, h2⟩
      · rintro ⟨rfl | h1, h2⟩
        · exact .inl rfl
        · exact .inr ⟨h1, h2⟩
    · rw [hmap]
      exact h.length
    · rw [hmap, h.bits q hq, Finset.mem_insert]
      exact ⟨.inr, fun hqF => hqF.resolve_left (by omega)⟩
  · rename_i hlt
    have hbit : ∀ q, (pmm_bitmap_clear s p 1).bitmap.bit q = (!decide (q = p) && s.bitmap.bit q) := by
      intro q
      have hend : (p + 1) % 2 ^ 64 = p + 1 := Nat.mod_eq_of_lt (by rw [BITMAP_PAGES_eq] at hlt; omega)
      simp only [pmm_bitmap_clear, hend, bit_clear_range, inRange, h.length]
      congr 2
      rw [decide_eq_decide]
      omega
    refine ⟨⟨l, hl.congr rfl rfl fun _ _ => rfl, hnd, fun q => ?_⟩, ?_, fun q hq => ?_⟩
    · rw [hm q, Finset.mem_insert]
      exact ⟨fun hqF => ⟨.inr hqF.1, hqF.2⟩, fun hqF => ⟨hqF.1.resolve_left (by omega), hqF.2⟩⟩
    · exact (length_clear_range _ _ _).trans h.length
    · rw [hbit, Finset.mem_insert, ← h.bits q hq]
      by_cases hqp : q = p <;> simp [hqp]

theorem foldl_giveBack {l : List Nat} (h : Holds s F) (hnd : l.Nodup)
    (hl : ∀ p ∈ l, p ∉ F) : Holds (l.foldl giveBack s) (F ∪ l.toFinset) ∧ OnlyFree s (l.foldl giveBack s) := by
  induction l generalizing s F with
  | nil => exact ⟨by simpa using h, rfl, rfl, rfl⟩
  | cons p l ih =>
    obtain ⟨hpl, hnd⟩ := nodup_cons.1 hnd
    obtain ⟨h1, h2⟩ := ih (giveBack_holds h fun _ => hl p mem_cons_self) hnd fun q hq => by
      rw [Finset.mem_insert, not_or]
      exact ⟨fun he => hpl (he ▸ hq), hl q (mem_cons_of_mem _ hq)⟩
    refine ⟨?_, (giveBack_onlyFree s p).trans h2⟩
    rw [foldl_cons, toFinset_cons, Finset.union_insert, ← Finset.insert_union]
    exact h1

/-! ## Taking pages -/

/-- What a request to the bitmap for `count` pages does when it fits below
`maxPfn`: no page, or a region of free ones. -/
theorem bitmap_set_holds (h : Holds s F) {count maxPfn alignPfn : Nat}
    (hc : count ≤ min maxPfn BITMAP_PAGES) {r : Option Nat}
    (hr : pmm_bitmap_set s count maxPfn alignPfn = some (r, s')) :
    OnlyFree s s' ∧ (r = none ∧ Holds s' F ∨
      ∃ pfn, r = some pfn ∧ pfn + count ≤ BITMAP_PAGES ∧ (∀ p, pfn ≤ p → p < pfn + count → p ∈ F) ∧
        Holds s' (F.filter fun p => ¬(pfn ≤ p ∧ p < pfn + count))) := by
  obtain ⟨⟨map, index⟩, hfind, heq⟩ := Option.map_eq_some_iff.1 hr
  obtain ⟨rfl, rfl⟩ := Prod.mk.inj heq
  have h64 : s.bitmap.length < 2 ^ 64 := by rw [h.length]; decide
  refine ⟨⟨rfl, rfl, rfl⟩, ?_⟩
  obtain ⟨l, hl, hnd, hm⟩ := h.stack
  rcases find_clear_region_found hc h64 hfind with he | ⟨hmap, hle, hclear⟩
  · obtain ⟨rfl, rfl⟩ := Prod.mk.inj he
    exact .inl ⟨if_pos rfl, h.congr rfl rfl rfl rfl⟩
  · simp only at hmap hle hclear
    have hle' : index + count ≤ BITMAP_PAGES := by omega
    have hbit : ∀ q, map.bit q = (decide (index ≤ q ∧ q < index + count) || s.bitmap.bit q) := by
      intro q
      rw [hmap, bit_set_range, inRange, h.length]
      congr 1
      rw [decide_eq_decide]
      omega
    have hF : ∀ p, index ≤ p → p < index + count → p ∈ F :=
      fun p h1 h2 => (h.bits p (by omega)).1 (hclear p h1 h2)
    have hlen : map.length = BITMAP_PAGES := by rw [hmap, length_set_range, h.length]
    have hholds : Holds { s with bitmap := map } (F.filter fun p => ¬(index ≤ p ∧ p < index + count)) := by
      refine ⟨⟨l, hl.congr rfl rfl fun _ _ => rfl, hnd, fun q => ?_⟩, hlen, fun q hq => ?_⟩
      · rw [hm q, Finset.mem_filter]
        exact ⟨fun hqF => ⟨⟨hqF.1, by omega⟩, hqF.2⟩, fun hqF => ⟨hqF.1.1, hqF.2⟩⟩
      · rw [hbit, Finset.mem_filter, ← h.bits q hq]
        by_cases hin : index ≤ q ∧ q < index + count <;> simp [hin]
    by_cases hi : index = s.bitmap.length
    · -- Only an empty request can end there.
      rw [if_pos hi]
      rw [h.length] at hi
      refine .inl ⟨rfl, ?_⟩
      rwa [Finset.filter_true_of_mem fun p hp => by omega] at hholds
    · rw [if_neg hi]
      refine .inr ⟨index, if_neg ?_, hle', hF, hholds⟩
      rw [ERR, BITMAP_PAGES_eq] at *
      omega

/-- The common part of `pmm_alloc` and `pmm_alloc_pages`: no page, or a free
one. -/
theorem takeFree_holds (h : Holds s F) (hF : ∀ p ∈ F, p < ERR) {r : Option Nat} (hr : takeFree s = some (r, s')) :
    OnlyFree s s' ∧ (r = none ∧ Holds s' F ∨ ∃ p ∈ F, r = some p ∧ Holds s' (F.erase p)) := by
  obtain ⟨l, hl, hnd, hm⟩ := h.stack
  unfold takeFree at hr
  cases l with
  | nil =>
    rw [stack_pop_empty hl] at hr
    obtain ⟨hof, hcase⟩ := bitmap_set_holds h (by decide) hr
    refine ⟨hof, hcase.imp id ?_⟩
    rintro ⟨pfn, rfl, -, hpfn, hholds⟩
    refine ⟨pfn, hpfn pfn (Nat.le_refl _) (by omega), rfl, ?_⟩
    have he : F.erase pfn = F.filter fun p => ¬(pfn ≤ p ∧ p < pfn + 1) := by
      ext p
      rw [Finset.mem_erase, Finset.mem_filter, and_comm]
      refine and_congr_right fun _ => ?_
      omega
    rw [he]
    exact hholds
  | cons p l =>
    obtain ⟨s1, hpop, hl1, hs1⟩ := stack_pop_holds hl
    obtain ⟨hpF, hpge⟩ := (hm p).1 mem_cons_self
    rw [hpop, pfnOf, if_neg (Nat.ne_of_lt (hF p hpF))] at hr
    obtain ⟨rfl, rfl⟩ := Prod.mk.inj (Option.some.inj hr)
    obtain ⟨hpl, hnd⟩ := nodup_cons.1 hnd
    refine ⟨by rw [hs1]; exact ⟨rfl, rfl, rfl⟩, .inr ⟨p, hpF, rfl, ⟨l, hl1, hnd, fun q => ?_⟩, ?_, fun q hq => ?_⟩⟩
    · have := hm q
      rw [mem_cons] at this
      rw [Finset.mem_erase]
      constructor
      · intro hq
        exact ⟨⟨fun he => hpl (he ▸ hq), (this.1 (.inr hq)).1⟩, (this.1 (.inr hq)).2⟩
      · rintro ⟨⟨hqp, hqF⟩, hge⟩
        exact (this.2 ⟨hqF, hge⟩).resolve_left hqp
    · rw [hs1]
      exact h.length
    · have hbm : s1.bitmap = s.bitmap := by rw [hs1]
      rw [hbm, h.bits q hq, Finset.mem_erase]
      exact ⟨fun hqF => ⟨by omega, hqF⟩, And.right⟩

/-- The loop of `pmm_alloc_pages` from the pages `pfns` on: more free pages, or
everything as it was. -/
theorem alloc_pages_loop_holds {n : Nat} (hF : ∀ p ∈ F, p < ERR) {pfns : List Nat}
    (h : Holds s (F \ pfns.toFinset)) (hnd : pfns.Nodup) (hsub : ∀ p ∈ pfns, p ∈ F) {r : Option (List Nat)}
    (hr : pmm_alloc_pages_loop n s pfns = some (r, s')) :
    OnlyFree s s' ∧ (r = none ∧ Holds s' F ∨
      ∃ l, r = some l ∧ l.length = pfns.length + n ∧ l.Nodup ∧ (∀ p ∈ l, p ∈ F) ∧ Holds s' (F \ l.toFinset)) := by
  induction n generalizing s pfns with
  | zero =>
    obtain ⟨rfl, rfl⟩ := Prod.mk.inj (Option.some.inj hr)
    exact ⟨⟨rfl, rfl, rfl⟩, .inr ⟨pfns, rfl, rfl, hnd, hsub, h⟩⟩
  | succ n ih =>
    have hF' : ∀ p ∈ F \ pfns.toFinset, p < ERR := fun p hp => hF p (Finset.mem_sdiff.1 hp).1
    unfold pmm_alloc_pages_loop at hr
    cases ht : takeFree s with
    | none => rw [ht] at hr; cases hr
    | some res =>
      obtain ⟨rp, s1⟩ := res
      rw [ht] at hr
      obtain ⟨hof, hcase⟩ := takeFree_holds h hF' ht
      rcases hcase with ⟨rfl, h1⟩ | ⟨p, hp, rfl, h1⟩
      · -- No page is left: those found so far go back.
        obtain ⟨rfl, rfl⟩ := Prod.mk.inj (Option.some.inj hr)
        obtain ⟨h2, hof2⟩ := foldl_giveBack h1 hnd fun p hp hm => (Finset.mem_sdiff.1 hm).2 (mem_toFinset.2 hp)
        have hsubset : pfns.toFinset ⊆ F := fun p hp => hsub p (mem_toFinset.1 hp)
        rw [Finset.sdiff_union_of_subset hsubset] at h2
        exact ⟨hof.trans hof2, .inl ⟨rfl, h2⟩⟩
      · obtain ⟨hpF, hpn⟩ := Finset.mem_sdiff.1 hp
        rw [mem_toFinset] at hpn
        have hset : (F \ pfns.toFinset).erase p = F \ (pfns ++ [p]).toFinset := by
          ext q
          simp only [Finset.mem_erase, Finset.mem_sdiff, mem_toFinset, mem_append, mem_singleton, not_or]
          tauto
        rw [hset] at h1
        obtain ⟨hof2, hres⟩ := ih h1 (nodup_append.2 ⟨hnd, nodup_singleton p, fun a ha b hb => by
          rw [mem_singleton.1 hb]; exact fun he => hpn (he ▸ ha)⟩) (fun q hq => by
          rcases mem_append.1 hq with hq | hq
          · exact hsub q hq
          · rw [mem_singleton.1 hq]; exact hpF) hr
        refine ⟨hof.trans hof2, hres.imp id ?_⟩
        rintro ⟨l, rfl, hlen, hrest⟩
        refine ⟨l, rfl, ?_, hrest⟩
        rw [hlen, length_append, length_singleton]
        omega

/-! ## The searches end -/

theorem bitmap_set_returns (hlen : s.bitmap.length = BITMAP_PAGES) {count maxPfn alignPfn : Nat}
    (hc : count ≤ min maxPfn BITMAP_PAGES) (ha : alignPfn ≤ 2 ^ 63) :
    ∃ r s', pmm_bitmap_set s count maxPfn alignPfn = some (r, s') := by
  have h64 : s.bitmap.length + max alignPfn 1 ≤ 2 ^ 64 := by
    rw [hlen, BITMAP_PAGES_eq]
    omega
  obtain ⟨⟨map, index⟩, hr⟩ : ∃ r, bitmap_find_clear_region_and_set s.bitmap 0 (min maxPfn BITMAP_PAGES) count
      (max alignPfn 1) = some r := find_clear_region_returns hc (by omega) h64
  simp only [pmm_bitmap_set, hr]
  exact ⟨_, _, rfl⟩

theorem takeFree_returns (h : Holds s F) : ∃ r s', takeFree s = some (r, s') := by
  obtain ⟨l, hl, -⟩ := h.stack
  unfold takeFree
  cases l with
  | nil =>
    rw [stack_pop_empty hl]
    exact bitmap_set_returns h.length (by decide) (by decide)
  | cons p l =>
    obtain ⟨s1, hpop, -, hs1⟩ := stack_pop_holds hl
    rw [hpop]
    cases pfnOf p with
    | some pfn => exact ⟨_, _, rfl⟩
    | none =>
      refine bitmap_set_returns ?_ (by decide) (by decide)
      rw [hs1]
      exact h.length

theorem alloc_pages_loop_returns {n : Nat} (h : Holds s F) (hF : ∀ p ∈ F, p < ERR)
    (pfns : List Nat) : ∃ r s', pmm_alloc_pages_loop n s pfns = some (r, s') := by
  induction n generalizing s F pfns with
  | zero => exact ⟨_, _, rfl⟩
  | succ n ih =>
    obtain ⟨r, s1, ht⟩ := takeFree_returns h
    obtain ⟨-, hcase⟩ := takeFree_holds h hF ht
    rw [pmm_alloc_pages_loop, ht]
    rcases hcase with ⟨rfl, -⟩ | ⟨p, -, rfl, h1⟩
    · exact ⟨_, _, rfl⟩
    · exact ih h1 (fun q hq => hF q (Finset.mem_of_mem_erase hq)) _

end Patchwork.Pmm
