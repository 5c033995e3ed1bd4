import Patchwork.Lib.Runs
import Patchwork.Mem.FreePages
/-!
# The accounts of the physical memory manager

The managed pages without references are the free ones: the stack and the
bitmap hold exactly these, each once, and `avail` is their number. Every
allocation, every release of a reference that someone holds and every
`pmm_ref_inc` keeps it so, and an allocator hands out free pages only.

The exception is `pmm_alloc_bitmap` with a request that does not fit below
`maxPfn`: `maxIdx - length` wraps in the search, which then accepts an index
beyond the bitmap.
-/

namespace Patchwork.Pmm

open Option Function Lib
open List hiding count

/-- The pages that are managed; `pages` has an entry for each below `highest`. -/
structure Managed where
  pages : Finset Nat
  highest : Nat
  lt : ∀ p ∈ pages, p < highest
  le : highest ≤ 2 ^ 52

/-- The managed pages with reference count 0. -/
def freePages (M : Managed) (s : State) : Finset Nat := M.pages.filter fun p => s.ref p = 0

structure Accounted (M : Managed) (s : State) : Prop where
  holds : Holds s (freePages M s)
  avail : s.avail = (freePages M s).card
  refs : ∀ p, s.ref p ≤ UINT16_MAX
  sound : s.failed = false

section Accounts
variable {M : Managed} {s s' : State}

variable {p : Nat} {l : List Nat}

theorem mem_freePages : p ∈ freePages M s ↔ p ∈ M.pages ∧ s.ref p = 0 := Finset.mem_filter

theorem freePages_congr (h : s'.ref = s.ref) : freePages M s' = freePages M s := by
  unfold freePages
  rw [h]

theorem freePages_lt (hp : p ∈ freePages M s) : p < 2 ^ 52 :=
  Nat.lt_of_lt_of_le (M.lt p (mem_freePages.1 hp).1) M.le

theorem card_freePages_le : (freePages M s).card ≤ 2 ^ 52 := by
  have hsub : freePages M s ⊆ Finset.range (2 ^ 52) := fun p hp => Finset.mem_range.2 (freePages_lt hp)
  simpa using Finset.card_le_card hsub

/-- Only the stack and the bitmap have changed, and they hold the same pages. -/
theorem Accounted.keep (h : Accounted M s) (hof : OnlyFree s s') (hh : Holds s' (freePages M s)) : Accounted M s' := by
  refine ⟨?_, ?_, ?_, hof.failed.trans h.sound⟩
  · rwa [freePages_congr hof.ref]
  · rw [freePages_congr hof.ref, hof.avail, h.avail]
  · rw [hof.ref]
    exact h.refs

theorem Accounted.setRefs (h : Accounted M s) {ref : Nat → Nat} (hzero : ∀ p, ref p = 0 ↔ s.ref p = 0)
    (hmax : ∀ p, ref p ≤ UINT16_MAX) : Accounted M { s with ref := ref } := by
  have hfree : freePages M { s with ref := ref } = freePages M s := by simp only [freePages, hzero]
  refine ⟨?_, hfree.symm ▸ h.avail, hmax, h.sound⟩
  rw [hfree]
  exact h.holds.congr rfl rfl rfl rfl

/-! ## Allocation -/

theorem claim_eq (h : s.ref p = 0) : claim s p = s.setRef p 1 := by
  simp [claim, State.assert, State.setRef, h]

theorem foldl_claim (hnd : l.Nodup) (h0 : ∀ p ∈ l, s.ref p = 0) :
    l.foldl claim s = { s with ref := fun p => if p ∈ l then 1 else s.ref p } := by
  induction l generalizing s with
  | nil => simp
  | cons p l ih =>
    obtain ⟨hpl, hnd⟩ := nodup_cons.1 hnd
    have hne : ∀ q ∈ l, q ≠ p := fun q hq he => hpl (he ▸ hq)
    rw [foldl_cons, claim_eq (h0 p mem_cons_self), ih hnd fun q hq => by
      rw [State.setRef]
      simp only [update_of_ne (hne q hq)]
      exact h0 q (mem_cons_of_mem _ hq)]
    simp only [State.setRef, State.mk.injEq, and_true]
    funext q
    by_cases hqp : q = p
    · subst hqp
      simp [hpl]
    · simp [hqp]

/-- Free pages that have left the stack and the bitmap get a reference each, and
`avail` goes down by their number. -/
theorem Accounted.take (h : Accounted M s) (hnd : l.Nodup) (hl : ∀ p ∈ l, p ∈ freePages M s)
    (hof : OnlyFree s s') (hh : Holds s' (freePages M s \ l.toFinset)) {n : Nat} (hn : l.length = n) :
    Accounted M { l.foldl claim s' with avail := ((l.foldl claim s').avail + 2 ^ 64 - n) % 2 ^ 64 } := by
  rw [foldl_claim hnd fun p hp => by rw [hof.ref]; exact (mem_freePages.1 (hl p hp)).2]
  have hsub : l.toFinset ⊆ freePages M s := fun p hp => hl p (List.mem_toFinset.1 hp)
  have hfree : M.pages.filter (fun p => (if p ∈ l then 1 else s'.ref p) = 0) = freePages M s \ l.toFinset := by
    ext p
    rw [Finset.mem_filter, Finset.mem_sdiff, mem_freePages, List.mem_toFinset, hof.ref]
    by_cases hp : p ∈ l <;> simp [hp]
  have hcard : (freePages M s \ l.toFinset).card = s.avail - n := by
    rw [Finset.card_sdiff_of_subset hsub, toFinset_card_of_nodup hnd, hn, h.avail]
  have hle : n ≤ s.avail := by
    have := Finset.card_le_card hsub
    rwa [toFinset_card_of_nodup hnd, hn, ← h.avail] at this
  have hmax : s.avail ≤ 2 ^ 52 := h.avail ▸ card_freePages_le
  refine ⟨?_, ?_, fun p => ?_, hof.failed.trans h.sound⟩
  · rw [freePages, hfree]
    exact hh.congr rfl rfl rfl rfl
  · rw [freePages, hfree, hcard]
    simp only [hof.avail]
    omega
  · simp only
    split
    · decide
    · rw [hof.ref]
      exact h.refs p

theorem region_eq {pfn count : Nat} (h : pfn + count ≤ 2 ^ 64) : region pfn count = List.range' pfn count := by
  rw [region, range'_eq_map_range]
  refine map_congr_left fun i hi => ?_
  rw [mem_range] at hi
  exact Nat.mod_eq_of_lt (by omega)

/-- The three allocators. -/
inductive Alloc where
  | alloc
  | allocPages (count : Nat)
  | allocBitmap (count maxPfn alignPfn : Nat)

namespace Alloc

def count : Alloc → Nat
  | alloc => 1
  | allocPages count => count
  | allocBitmap count _ _ => count

def alignPfn : Alloc → Nat
  | allocBitmap _ _ alignPfn => alignPfn
  | _ => 1

/-- The call, with the pages it returns. -/
def exec (s : State) : Alloc → Option (Option (List Nat) × State)
  | alloc => (pmm_alloc s).map fun (pfn, s) => (pfn.map fun pfn => [pfn], s)
  | allocPages count => pmm_alloc_pages s count
  | allocBitmap count maxPfn alignPfn =>
    (pmm_alloc_bitmap s count maxPfn alignPfn).map fun (pfn, s) => (pfn.map fun pfn => region pfn count, s)

/-- A request to the bitmap fits below the page it must end at. -/
def Fits : Alloc → Prop
  | allocBitmap count maxPfn _ => count ≤ min maxPfn BITMAP_PAGES
  | _ => True

instance : DecidablePred Fits := fun a => by
  unfold Fits
  split <;> infer_instance

end Alloc

/-- What a caller of an allocator gets: as many pages as asked for, each free
before and each once, or nothing and no change. -/
def Served (M : Managed) (s : State) (a : Alloc) : Option (List Nat) → State → Prop
  | some l, _ => l.length = a.count ∧ l.Nodup ∧ ∀ p ∈ l, p ∈ freePages M s
  | none, s' => freePages M s' = freePages M s ∧ s'.avail = s.avail ∧ s'.ref = s.ref

theorem served_none (h : OnlyFree s s') (a : Alloc) : Served M s a none s' :=
  ⟨freePages_congr h.ref, h.avail, h.ref⟩

theorem alloc_accounted (h : Accounted M s) {r : Option Nat} (he : pmm_alloc s = some (r, s')) :
    Accounted M s' ∧ Served M s .alloc (r.map fun p => [p]) s' := by
  obtain ⟨⟨r1, s1⟩, ht, he⟩ := map_eq_some_iff.1 he
  obtain ⟨hof, hcase⟩ := takeFree_holds h.holds (fun p hp => Nat.lt_trans (freePages_lt hp) (by decide)) ht
  obtain ⟨rfl, rfl⟩ := Prod.mk.inj he
  rcases hcase with ⟨rfl, hh⟩ | ⟨p, hp, rfl, hh⟩
  · exact ⟨h.keep hof hh, served_none hof _⟩
  · have hl : ∀ q ∈ [p], q ∈ freePages M s := fun q hq => mem_singleton.1 hq ▸ hp
    refine ⟨h.take (nodup_singleton p) hl hof ?_ rfl, rfl, nodup_singleton p, hl⟩
    rwa [toFinset_cons, toFinset_nil, insert_empty_eq, Finset.sdiff_singleton_eq_erase]

theorem alloc_pages_accounted (h : Accounted M s) {count : Nat} {r : Option (List Nat)}
    (he : pmm_alloc_pages s count = some (r, s')) : Accounted M s' ∧ Served M s (.allocPages count) r s' := by
  obtain ⟨⟨r1, s1⟩, ht, he⟩ := map_eq_some_iff.1 he
  obtain ⟨hof, hcase⟩ := alloc_pages_loop_holds (fun p hp => Nat.lt_trans (freePages_lt hp) (by decide))
    (by simpa using h.holds) nodup_nil nofun ht
  obtain ⟨rfl, rfl⟩ := Prod.mk.inj he
  rcases hcase with ⟨rfl, hh⟩ | ⟨l, rfl, hlen, hnd, hl, hh⟩
  · exact ⟨h.keep hof hh, served_none hof _⟩
  · rw [length_nil, Nat.zero_add] at hlen
    exact ⟨h.take hnd hl hof hh hlen, hlen, hnd, hl⟩

theorem alloc_bitmap_accounted (h : Accounted M s) {count maxPfn alignPfn : Nat} (hc : count ≤ min maxPfn BITMAP_PAGES)
    {r : Option Nat} (he : pmm_alloc_bitmap s count maxPfn alignPfn = some (r, s')) :
    Accounted M s' ∧ Served M s (.allocBitmap count maxPfn alignPfn) (r.map fun p => region p count) s' := by
  obtain ⟨⟨r1, s1⟩, ht, he⟩ := map_eq_some_iff.1 he
  obtain ⟨hof, hcase⟩ := bitmap_set_holds h.holds hc ht
  obtain ⟨rfl, rfl⟩ := Prod.mk.inj he
  rcases hcase with ⟨rfl, hh⟩ | ⟨pfn, rfl, hle, hF, hh⟩
  · exact ⟨h.keep hof hh, served_none hof _⟩
  · have hreg : region pfn count = List.range' pfn count := region_eq (by rw [BITMAP_PAGES_eq] at hle; omega)
    have hnd : (region pfn count).Nodup := hreg ▸ nodup_range'
    have hl : ∀ p ∈ region pfn count, p ∈ freePages M s := by
      intro p hp
      rw [hreg, mem_range'_1] at hp
      exact hF p hp.1 hp.2
    have hlen : (region pfn count).length = count := by rw [hreg, length_range']
    refine ⟨h.take hnd hl hof ?_ hlen, hlen, hnd, hl⟩
    have hset : freePages M s \ (region pfn count).toFinset =
        (freePages M s).filter fun p => ¬(pfn ≤ p ∧ p < pfn + count) := by
      ext p
      rw [Finset.mem_sdiff, Finset.mem_filter, List.mem_toFinset, hreg, mem_range'_1]
    rw [hset]
    exact hh

theorem exec_accounted (h : Accounted M s) {a : Alloc} (hfit : a.Fits) {r : Option (List Nat)}
    (he : a.exec s = some (r, s')) : Accounted M s' ∧ Served M s a r s' := by
  cases a with
  | alloc =>
    obtain ⟨⟨r1, s1⟩, hcall, heq⟩ := map_eq_some_iff.1 he
    obtain ⟨rfl, rfl⟩ := Prod.mk.inj heq
    exact alloc_accounted h hcall
  | allocPages count => exact alloc_pages_accounted h he
  | allocBitmap count maxPfn alignPfn =>
    obtain ⟨⟨r1, s1⟩, hcall, heq⟩ := map_eq_some_iff.1 he
    obtain ⟨rfl, rfl⟩ := Prod.mk.inj heq
    exact alloc_bitmap_accounted h hfit hcall

/-- Every call whose request fits returns, unless its alignment is so large that
rounding up wraps. -/
theorem exec_returns (h : Accounted M s) {a : Alloc} (hfit : a.Fits) (ha : a.alignPfn ≤ 2 ^ 63) :
    ∃ r s', a.exec s = some (r, s') := by
  have hF : ∀ p ∈ freePages M s, p < ERR := fun p hp => Nat.lt_trans (freePages_lt hp) (by decide)
  cases a with
  | alloc =>
    obtain ⟨r, s1, ht⟩ := takeFree_returns h.holds
    simp only [Alloc.exec, pmm_alloc, ht]
    exact ⟨_, _, rfl⟩
  | allocPages count =>
    obtain ⟨r, s1, ht⟩ : ∃ r s', pmm_alloc_pages_loop count s [] = some (r, s') :=
      alloc_pages_loop_returns h.holds hF []
    simp only [Alloc.exec, pmm_alloc_pages, ht]
    exact ⟨_, _, rfl⟩
  | allocBitmap count maxPfn alignPfn =>
    obtain ⟨r, s1, ht⟩ : ∃ r s', pmm_bitmap_set s count maxPfn alignPfn = some (r, s') :=
      bitmap_set_returns h.holds.length hfit ha
    simp only [Alloc.exec, pmm_alloc_bitmap, ht]
    exact ⟨_, _, rfl⟩

/-! ## References -/

/-- Frees match outstanding references: each managed page of the list has as
many as it is freed times. -/
def FreesMatch (M : Managed) (s : State) (l : List Nat) : Prop := ∀ p ∈ l, p ∈ M.pages ∧ l.count p ≤ s.ref p

instance (M : Managed) (s : State) (l : List Nat) : Decidable (FreesMatch M s l) := by
  unfold FreesMatch
  infer_instance

theorem free_unlocked_eq (h0 : 0 < s.ref p) (hmax : s.ref p ≤ UINT16_MAX) : pmm_free_unlocked s p =
    if s.ref p - 1 > 0 then s.setRef p (s.ref p - 1)
    else
      { giveBack (s.setRef p (s.ref p - 1)) p with
        avail := ((giveBack (s.setRef p (s.ref p - 1)) p).avail + 1) % 2 ^ 64 } := by
  have hdec : (s.ref p + 2 ^ 16 - 1) % 2 ^ 16 = s.ref p - 1 := by
    rw [UINT16_MAX] at hmax
    omega
  have hassert : s.assert (decide (s.ref p > 0)) = s := by
    rw [decide_eq_true h0]
    simp [State.assert]
  simp only [pmm_free_unlocked, hassert, hdec]

theorem free_unlocked_ref (h0 : 0 < s.ref p) (hmax : s.ref p ≤ UINT16_MAX) :
    (pmm_free_unlocked s p).ref = update s.ref p (s.ref p - 1) := by
  rw [free_unlocked_eq h0 hmax]
  split
  · rfl
  · exact (giveBack_onlyFree _ _).ref

theorem free_accounted (h : Accounted M s) (hp : p ∈ M.pages) (h0 : 0 < s.ref p) : Accounted M (pmm_free_unlocked s p) := by
  have hrefs : ∀ q, update s.ref p (s.ref p - 1) q ≤ UINT16_MAX := by
    intro q
    rw [update_apply]
    split
    · exact Nat.le_trans (Nat.sub_le _ _) (h.refs p)
    · exact h.refs q
  rw [free_unlocked_eq h0 (h.refs p)]
  split
  · refine h.setRefs (fun q => ?_) hrefs
    rw [update_apply]
    split
    · next hq =>
      rw [hq]
      omega
    · rfl
  · -- The last reference: the page joins the free ones.
    have hof := giveBack_onlyFree (s.setRef p (s.ref p - 1)) p
    have hpF : p ∉ freePages M s := fun hm => h0.ne' (mem_freePages.1 hm).2
    have hfree : M.pages.filter (fun q => (giveBack (s.setRef p (s.ref p - 1)) p).ref q = 0) =
        insert p (freePages M s) := by
      ext q
      rw [Finset.mem_filter, Finset.mem_insert, mem_freePages, hof.ref]
      by_cases hq : q = p
      · subst hq
        simp only [State.setRef, update_self, hp, true_and, true_or, iff_true]
        omega
      · simp [State.setRef, hq]
    have hmax : (freePages M s).card ≤ 2 ^ 52 := card_freePages_le
    refine ⟨?_, ?_, hof.ref.symm ▸ hrefs, hof.failed.trans h.sound⟩
    · rw [freePages, hfree]
      have hbase : Holds (s.setRef p (s.ref p - 1)) (freePages M s) := h.holds.congr rfl rfl rfl rfl
      exact (giveBack_holds hbase fun _ => hpF).congr rfl rfl rfl rfl
    · rw [freePages, hfree, Finset.card_insert_of_notMem hpF]
      simp only [show _ = (freePages M s).card from hof.avail.trans h.avail]
      omega

theorem foldl_free_accounted (h : Accounted M s) (hm : FreesMatch M s l) : Accounted M (l.foldl pmm_free_unlocked s) := by
  induction l generalizing s with
  | nil => exact h
  | cons p l ih =>
    obtain ⟨hp, hcount⟩ := hm p mem_cons_self
    rw [count_cons_self] at hcount
    have h0 : 0 < s.ref p := by omega
    rw [foldl_cons]
    refine ih (free_accounted h hp h0) fun q hq => ⟨(hm q (mem_cons_of_mem _ hq)).1, ?_⟩
    have hq' := (hm q (mem_cons_of_mem _ hq)).2
    rw [free_unlocked_ref h0 (h.refs p)]
    by_cases hqp : q = p
    · subst hqp
      rw [update_self]
      omega
    · rw [update_of_ne hqp]
      rwa [count_cons_of_ne (Ne.symm hqp)] at hq'

/-- One more reference for each page of the list. -/
def bump (l : List Nat) (ref : Nat → Nat) (p : Nat) : Nat := if p ∈ l then ref p + 1 else ref p

theorem bump_nil (ref : Nat → Nat) : bump [] ref = ref := by
  funext p
  simp [bump]

theorem foldl_refDec (hnd : l.Nodup) (hl : ∀ p ∈ l, s.ref p < UINT16_MAX) :
    l.foldl refDec { s with ref := bump l s.ref } = s := by
  induction l with
  | nil => rw [foldl_nil, bump_nil]
  | cons p l ih =>
    obtain ⟨hpl, hnd⟩ := nodup_cons.1 hnd
    have hp : (s.ref p + 1 + 2 ^ 16 - 1) % 2 ^ 16 = s.ref p := by
      have := hl p mem_cons_self
      rw [UINT16_MAX] at this
      omega
    have hread : bump (p :: l) s.ref p = s.ref p + 1 := if_pos mem_cons_self
    have hstep : refDec { s with ref := bump (p :: l) s.ref } p = { s with ref := bump l s.ref } := by
      simp only [refDec, hread, hp, State.setRef, State.mk.injEq, and_true]
      funext q
      by_cases hqp : q = p
      · subst hqp
        rw [update_self, bump, if_neg hpl]
      · rw [update_of_ne hqp]
        simp [bump, hqp]
    rw [foldl_cons, hstep]
    exact ih hnd fun q hq => hl q (mem_cons_of_mem _ hq)

theorem ref_inc_loop_spec {rest done : List Nat} (hnd : (done ++ rest).Nodup)
    (hdone : ∀ p ∈ done, s.ref p ≠ 0 ∧ s.ref p < UINT16_MAX) (hmax : ∀ p, s.ref p ≤ UINT16_MAX) :
    pmm_ref_inc_loop done rest { s with ref := bump done s.ref } = (false, s) ∨
      pmm_ref_inc_loop done rest { s with ref := bump done s.ref } =
          (true, { s with ref := bump (done ++ rest) s.ref }) ∧
        ∀ p ∈ done ++ rest, s.ref p ≠ 0 ∧ s.ref p < UINT16_MAX := by
  induction rest generalizing done with
  | nil =>
    rw [append_nil]
    exact .inr ⟨rfl, hdone⟩
  | cons p rest ih =>
    have hp : p ∉ done := fun hm => disjoint_of_nodup_append hnd hm mem_cons_self
    have hread : bump done s.ref p = s.ref p := if_neg hp
    simp only [pmm_ref_inc_loop, hread]
    split
    · refine .inl ?_
      rw [foldl_refDec (nodup_append.1 hnd).1 fun q hq => (hdone q hq).2]
    · rename_i hok
      rw [not_or] at hok
      have hlt : s.ref p < UINT16_MAX := Nat.lt_of_le_of_ne (hmax p) hok.2
      have hnext : ({ s with ref := bump done s.ref } : State).setRef p ((s.ref p + 1) % 2 ^ 16) =
          { s with ref := bump (done ++ [p]) s.ref } := by
        have hinc : (s.ref p + 1) % 2 ^ 16 = s.ref p + 1 := Nat.mod_eq_of_lt (by rw [UINT16_MAX] at hlt; omega)
        simp only [State.setRef, State.mk.injEq, and_true, hinc]
        funext q
        by_cases hqp : q = p
        · subst hqp
          simp [bump]
        · simp [bump, hqp]
      rw [hnext, append_cons done p rest]
      refine ih (append_cons done p rest ▸ hnd) fun q hq => ?_
      rcases mem_append.1 hq with hq | hq
      · exact hdone q hq
      · rw [mem_singleton.1 hq]
        exact ⟨hok.1, hlt⟩

theorem ref_inc_accounted (h : Accounted M s) {pfn count : Nat} (hle : pfn + count ≤ M.highest) :
    Accounted M (pmm_ref_inc s pfn count).2 ∧ ((pmm_ref_inc s pfn count).1 = none → (pmm_ref_inc s pfn count).2 = s) := by
  have hreg : region pfn count = List.range' pfn count := region_eq (by have := M.le; omega)
  have hnd : ([] ++ region pfn count).Nodup := by
    rw [nil_append, hreg]
    exact nodup_range'
  have hspec := ref_inc_loop_spec hnd nofun h.refs
  have hnil : ({ s with ref := bump [] s.ref } : State) = s := by rw [bump_nil]
  rw [hnil, nil_append] at hspec
  unfold pmm_ref_inc
  rcases hspec with heq | ⟨heq, hall⟩
  · rw [heq]
    exact ⟨h, fun _ => rfl⟩
  · rw [heq]
    refine ⟨h.setRefs (fun q => ?_) fun q => ?_, nofun⟩
    · simp only [bump]
      split
      · rename_i hq
        have := (hall q hq).1
        omega
      · rfl
    · simp only [bump]
      split
      · rename_i hq
        exact (hall q hq).2
      · exact h.refs q

/-- A page that is not free is its owner's to write to. -/
theorem write_accounted (h : Accounted M s) (hp : p ∉ freePages M s) (page : page_stack_t) :
    Accounted M { s with memory := update s.memory p page } := by
  obtain ⟨l, hl, hnd, hm⟩ := h.holds.stack
  refine ⟨⟨⟨l, hl.congr rfl rfl fun q hq => ?_, hnd, hm⟩, h.holds.length, h.holds.bits⟩, h.avail, h.refs, h.sound⟩
  exact update_of_ne (fun he : q = p => hp (he ▸ ((hm q).1 hq).1)) _ _

end Accounts

/-! ## Runs -/

inductive Action where
  | alloc (a : Alloc)
  | free (pfn : Nat)
  | freePages (pfns : List Nat)
  | freeRegion (pfn count : Nat)
  | refInc (pfn count : Nat)
  | write (pfn : Nat) (page : page_stack_t)

/-- Frees match outstanding references, `pmm_ref_inc` stays within `pages`, and
nobody writes to a free page. -/
def step (M : Managed) (s : State) : Action → Option State
  | .alloc a => (a.exec s).map Prod.snd
  | .free pfn => if FreesMatch M s [pfn] then some (pmm_free s pfn) else none
  | .freePages pfns => if FreesMatch M s pfns then some (pmm_free_pages s pfns) else none
  | .freeRegion pfn count => if FreesMatch M s (region pfn count) then some (pmm_free_region s pfn count) else none
  | .refInc pfn count => if pfn + count ≤ M.highest then some (pmm_ref_inc s pfn count).2 else none
  | .write pfn page =>
    if pfn ∉ freePages M s then some { s with memory := update s.memory pfn page } else none

/-- The condition under which the accounts are kept. -/
def InRange (_ : State) : Action → Prop
  | .alloc a => a.Fits
  | _ => True

instance (s : State) (a : Action) : Decidable (InRange s a) := by
  unfold InRange
  split <;> infer_instance

/-- An allocator returns free pages or changes nothing, and a `pmm_ref_inc` that
fails changes nothing. -/
def Honest (M : Managed) (s : State) : Action → Prop
  | .alloc a => ∀ r s', a.exec s = some (r, s') → Served M s a r s'
  | .refInc pfn count =>
    pfn + count ≤ M.highest → (pmm_ref_inc s pfn count).1 = none →
      freePages M (pmm_ref_inc s pfn count).2 = freePages M s ∧ (pmm_ref_inc s pfn count).2.avail = s.avail ∧
        (pmm_ref_inc s pfn count).2.ref = s.ref
  | _ => True

theorem step_accounted {M : Managed} {s s' : State} {a : Action} (h : Accounted M s) (hin : InRange s a)
    (hs : step M s a = some s') : Accounted M s' := by
  cases a with
  | alloc a =>
    obtain ⟨⟨r, s1⟩, he, rfl⟩ := map_eq_some_iff.1 hs
    exact (exec_accounted h hin he).1
  | free pfn =>
    obtain ⟨hm, heq⟩ := ite_none_right_eq_some.1 hs
    rw [← Option.some.inj heq]
    obtain ⟨hp, h1⟩ := hm pfn (mem_singleton_self _)
    rw [count_singleton_self] at h1
    exact free_accounted h hp h1
  | freePages pfns =>
    obtain ⟨hm, heq⟩ := ite_none_right_eq_some.1 hs
    cases heq
    exact foldl_free_accounted h hm
  | freeRegion pfn count =>
    obtain ⟨hm, heq⟩ := ite_none_right_eq_some.1 hs
    cases heq
    exact foldl_free_accounted h hm
  | refInc pfn count =>
    obtain ⟨hle, heq⟩ := ite_none_right_eq_some.1 hs
    cases heq
    exact (ref_inc_accounted h hle).1
  | write pfn page =>
    obtain ⟨hp, heq⟩ := ite_none_right_eq_some.1 hs
    cases heq
    exact write_accounted h hp page

theorem honest_of_accounted {M : Managed} {s : State} {a : Action} (h : Accounted M s) (hin : InRange s a) :
    Honest M s a := by
  cases a with
  | alloc a => exact fun r s' he => (exec_accounted h hin he).2
  | refInc pfn count =>
    intro hle hnone
    rw [(ref_inc_accounted h hle).2 hnone]
    exact ⟨rfl, rfl, rfl⟩
  | free | freePages | freeRegion | write => trivial

/-- Along every run whose requests to the bitmap fit, the stack and the bitmap
hold exactly the managed pages without references, each once, `avail` is their
number and no assert fails; allocators return free pages only, and what fails
changes nothing. -/
theorem accounted_always {M : Managed} {s : State} {as : List Action} (h : Accounted M s)
    (hin : Along (step M) InRange s as) : Always (step M) (Accounted M) s as ∧ Along (step M) (Honest M) s as :=
  ⟨hin.always (fun _ _ _ => step_accounted) h, hin.along (fun _ _ _ => step_accounted) (fun _ _ => honest_of_accounted) h⟩

/-! ## One free page -/

/-- Page 1 and two pages above those of the bitmap. -/
def threePages : Managed where
  pages := {1, 16384, 16385}
  highest := 16386
  lt := by decide
  le := by decide

/-- Page 1 is free: all bits of the bitmap but its bit are set. The other two are in use. -/
def oneFree : State where
  ref := fun p => if p = 1 then 0 else if p < 16384 then UINT16_MAX else 1
  stack := none
  location := FREE_PAGE_MAX
  bitmap :=
    { firstZeroIdx := 0, length := BITMAP_PAGES, buffer := fun i => if i = 0 then ~~~2#64 else BitVec.allOnes 64 }
  avail := 1
  memory := fun _ => { next := none, pages := fun _ => 0 }
  failed := false

theorem oneFree_accounted : Accounted threePages oneFree := by
  have hfree : freePages threePages oneFree = {1} := by decide
  refine ⟨⟨⟨[], ⟨rfl, rfl⟩, nodup_nil, fun p => ?_⟩, rfl, fun p hp => ?_⟩, ?_, fun p => ?_, rfl⟩
  · rw [hfree, Finset.mem_singleton, BITMAP_PAGES_eq]
    simp only [not_mem_nil, false_iff]
    omega
  · rw [hfree, Finset.mem_singleton]
    by_cases h : p < 64
    · have hfirst : ∀ p < 64, (~~~2#64).getLsbD p = false ↔ p = 1 := by decide
      simp only [oneFree, bitmap_t.bit, Nat.div_eq_of_lt h, Nat.mod_eq_of_lt h, if_true]
      exact hfirst p h
    · have hword : p / 64 ≠ 0 := by omega
      have hbit : p % 64 < 64 := Nat.mod_lt _ (by decide)
      simp only [oneFree, bitmap_t.bit, if_neg hword, BitVec.getLsbD_allOnes, hbit, decide_true, Bool.true_eq_false,
        false_iff]
      omega
  · rw [hfree]
    rfl
  · simp only [oneFree]
    split_ifs <;> decide

/-- Page 1 is allocated, referenced again and freed twice. The other pages are freed, where
the first one becomes the stack that holds the second one, and allocated again; then page 1
is allocated from the bitmap. -/
def oneFreeRun : List Action :=
  [.alloc .alloc, .refInc 1 1, .free 1, .free 1, .free 16384, .free 16385, .alloc (.allocPages 2),
    .alloc (.allocBitmap 1 2 1)]

theorem oneFree_always :
    (run (step threePages) oneFree oneFreeRun).isSome = true ∧
      Always (step threePages) (Accounted threePages) oneFree oneFreeRun ∧
      Along (step threePages) (Honest threePages) oneFree oneFreeRun :=
  ⟨by decide +kernel, accounted_always oneFree_accounted (by decide +kernel)⟩

/-- Three pages below page 1: `maxIdx - length` is `2 ^ 64 - 2`, and with that
alignment so is the first index after 0, where the region ends at 1 again. -/
theorem wrapped_request :
    Accounted threePages oneFree ∧
      (Alloc.exec oneFree (.allocBitmap 3 1 (2 ^ 64 - 2))).map Prod.fst = some (some [2 ^ 64 - 2, 2 ^ 64 - 1, 0]) ∧
      ∃ s, step threePages oneFree (.alloc (.allocBitmap 3 1 (2 ^ 64 - 2))) = some s ∧ ¬ Accounted threePages s := by
  refine ⟨oneFree_accounted, by decide +kernel, ?_⟩
  have havail : (step threePages oneFree (.alloc (.allocBitmap 3 1 (2 ^ 64 - 2)))).map State.avail = some (2 ^ 64 - 2) := by
    decide +kernel
  obtain ⟨s, hs, ha⟩ := map_eq_some_iff.1 havail
  refine ⟨s, hs, fun h => ?_⟩
  have hle : (freePages threePages s).card ≤ 2 ^ 52 := card_freePages_le
  rw [← h.avail, ha] at hle
  exact absurd hle (by decide)

end Patchwork.Pmm
