import Patchwork.Mem.Tags
/-!
# What clearing a range gives back

`page_table_clear` frees the owned frames of a range that was unmapped, and is meant to free
the tables that become empty. It asks the cache of `page_table_traverse` which table it has
left, and the flags of that cache are never set: no table is ever freed.
-/

namespace Patchwork.Paging

open List Entry

variable {σ : Type} (env : Env σ)

/-- The environment with a log of the frames that went to `freePages`. -/
def logged : Env (σ × List Nat) where
  allocPages mem amount := ((env.allocPages mem.1 amount).1, (env.allocPages mem.1 amount).2, mem.2)
  freePages mem pfns := (env.freePages mem.1 pfns, mem.2 ++ pfns)
  malloc mem size := ((env.malloc mem.1 size).1, (env.malloc mem.1 size).2, mem.2)

/-- The entry that names the table at the end of a path of indices, and the table. -/
def tableAt : List Nat → pml_t → Option (pml_entry_t × pml_t)
  | [], _ => none
  | [i], t => if present (t.entry i) then some (t.entry i, t.next i) else none
  | i :: path, t => if present (t.entry i) then tableAt path (t.next i) else none

/-- The path of the PML1 table of a page. -/
def path (v : Nat) : List Nat := [v / 2 ^ 27 % 512, v / 2 ^ 18 % 512, v / 2 ^ 9 % 512]

/-- The paths of the PML3, PML2 and PML1 tables that cover part of the range. -/
def tables (addr amount : Nat) : List (List Nat) :=
  ((vpns addr amount).flatMap fun v => [(path v).take 1, (path v).take 2, path v]).dedup

/-- The table was not empty, is empty, and is still there. -/
def BecomesEmpty (t t' : pml_t) (path : List Nat) : Prop :=
  ∃ before ∈ tableAt path t, ∃ after ∈ tableAt path t', pml_is_empty before.2 = false ∧ pml_is_empty after.2 = true

/-- The frames of the owned ones among these pages. -/
def ownedFrames (t : pml_t) (pages : List Nat) : List Nat :=
  (pages.filter fun v => owned (page t v)).map fun v => pfn (page t v)

/-- The frame of each table that is no longer there. -/
def unlinked (t t' : pml_t) (paths : List (List Nat)) : List Nat :=
  paths.filterMap fun path => if (tableAt path t').isNone then (tableAt path t).map fun e => pfn e.1 else none

/-- The table `t` has been unmapped to `t₀` and cleared to `t'`, and `freed` went to `freePages`. -/
structure Reclaims (t t₀ t' : pml_t) (freed : List Nat) (addr amount : Nat) : Prop where
  zero : ∀ v ∈ vpns addr amount, page t' v = 0#64
  others : ∀ v < 2 ^ 36, v ∉ vpns addr amount → page t' v = page t₀ v
  freed : freed.Perm (ownedFrames t₀ (vpns addr amount).dedup ++ unlinked t t' (tables addr amount))
  tables : ∀ path ∈ tables addr amount, ¬ BecomesEmpty t t' path

variable {t : pml_t} {l : List Nat} {traverse prev : page_table_traverse_t} {mem : σ × List Nat}

/-- No PML1 table is left without an entry: where the range touches one with an entry, it has
one outside the range. -/
def KeepsEntry (t : pml_t) (addr amount : Nat) : Prop :=
  ∀ v ∈ vpns addr amount, (∃ w < 2 ^ 36, w / 512 = v / 512 ∧ page t w ≠ 0#64) →
    ∃ w < 2 ^ 36, w / 512 = v / 512 ∧ w ∉ vpns addr amount ∧ page t w ≠ 0#64

/-! ## Tables -/

/-- The entries that name the tables of `n` levels are the same. -/
def SameLinks (n : Nat) (t t' : pml_t) : Prop :=
  ∀ path : List Nat, path.length ≤ n → (tableAt path t').map Prod.fst = (tableAt path t).map Prod.fst ∧
    (path.length < n → (tableAt path t').map (fun x => x.2.entry) = (tableAt path t).map fun x => x.2.entry)

theorem SameLinks.refl (n : Nat) (t : pml_t) : SameLinks n t t := fun _ _ => ⟨rfl, fun _ => rfl⟩

theorem SameLinks.trans {n : Nat} {t' t'' : pml_t} (h : SameLinks n t t') (h' : SameLinks n t' t'') : SameLinks n t t'' :=
  fun path hp => ⟨(h' path hp).1.trans (h path hp).1, fun hlt => ((h' path hp).2 hlt).trans ((h path hp).2 hlt)⟩

theorem sameLinks_setEntryAt (n : Nat) (t : pml_t) (addr : Nat) (e : pml_entry_t) :
    SameLinks n t (setEntryAt addr e n t) := by
  induction n generalizing t with
  | zero =>
    intro path hp
    rw [length_eq_zero_iff.1 (Nat.le_zero.1 hp)]
    exact ⟨rfl, fun _ => rfl⟩
  | succ n ih =>
    intro path hp
    match path with
    | [] => exact ⟨rfl, fun _ => rfl⟩
    | [i] =>
      simp only [tableAt, setEntryAt, pml_t.entry_setNext, pml_t.next_setNext]
      split
      · refine ⟨rfl, fun hlt => congrArg some ?_⟩
        by_cases hi : i = PML_ADDR_TO_INDEX addr (n + 2)
        · obtain ⟨m, rfl⟩ : ∃ m, n = m + 1 := ⟨n - 1, by simp at hlt; omega⟩
          simp only [setEntryAt, hi]
          exact funext fun j => pml_t.entry_setNext ..
        · rw [if_neg hi]
      · exact ⟨rfl, fun _ => rfl⟩
    | i :: j :: path =>
      simp only [tableAt, setEntryAt, pml_t.entry_setNext, pml_t.next_setNext]
      split
      · by_cases hi : i = PML_ADDR_TO_INDEX addr (n + 2)
        · simp only [hi]
          have := ih (t.next (PML_ADDR_TO_INDEX addr (n + 2))) (j :: path) (Nat.le_of_succ_le_succ hp)
          exact ⟨this.1, fun hlt => this.2 (Nat.lt_of_succ_lt_succ hlt)⟩
        · rw [if_neg hi]
          exact ⟨rfl, fun _ => rfl⟩
      · exact ⟨rfl, fun _ => rfl⟩

theorem sameLinks_unmap_loop (h : traverse.Invalid) (mem : σ) :
    SameLinks 3 t (page_table_unmap_loop env mem t traverse l) := by
  induction l generalizing traverse t with
  | nil => exact .refl 3 t
  | cons addr l ih =>
    obtain ⟨ok, traverse', heq, hinv, ⟨rfl, -⟩ | ⟨rfl, -, -⟩⟩ := traverse_none env h t mem addr
    · rw [page_table_unmap_loop, heq]
      dsimp only
      split
      · exact ih hinv
      · exact (sameLinks_setEntryAt 3 t addr _).trans (ih hinv)
    · rw [page_table_unmap_loop, heq]
      exact ih hinv

/-- The entry of page `w` is in the PML1 table of each page next to it. -/
theorem page_eq {v w : Nat} (hw : w < 2 ^ 36) (h : w / 512 = v / 512) :
    page t w = ((tableAt (path v) t).map fun x => x.2.entry (w % 512)).getD 0#64 := by
  have h4 : w / 2 ^ 27 % 512 = v / 2 ^ 27 % 512 := by omega
  have h3 : w / 2 ^ 18 % 512 = v / 2 ^ 18 % 512 := by omega
  have h2 : w / 2 ^ 9 % 512 = v / 2 ^ 9 % 512 := by omega
  have h1 : w / 2 ^ 0 % 512 = w % 512 := by omega
  simp only [page, leaf, index_eq _ _ (by decide : 1 ≤ 4) (by decide), index_eq _ _ (by decide : 1 ≤ 3) (by decide),
    index_eq _ _ (by decide : 1 ≤ 2) (by decide), index_eq _ _ (by decide : 1 ≤ 1) (by decide), vpn_page hw, path, tableAt,
    Nat.reduceAdd, Nat.reduceSub, Nat.reduceMul, h4, h3, h2, h1]
  split_ifs <;> simp_all

theorem length_of_mem_tables {addr amount : Nat} {p : List Nat} (h : p ∈ tables addr amount) : p.length ≤ 3 := by
  obtain ⟨v, -, hv⟩ := mem_flatMap.1 (mem_dedup.1 h)
  simp only [mem_cons, not_mem_nil, or_false] at hv
  rcases hv with rfl | rfl | rfl <;> simp [path]

theorem pml_is_empty_iff {T : pml_t} : pml_is_empty T = true ↔ ∀ i < 512, T.entry i = 0#64 := by
  simp [pml_is_empty, PML_INDEX_AMOUNT]

/-! ## Clearing -/

theorem push_log (buffer : List Nat) (pfn : Nat) :
    (page_table_page_buffer_push (logged env) mem buffer pfn).2.2 ++
      (page_table_page_buffer_push (logged env) mem buffer pfn).1 = mem.2 ++ buffer ++ [pfn] := by
  unfold page_table_page_buffer_push
  dsimp only
  split <;> simp [logged]

theorem ownedFrames_cons {t' : pml_t} {v : Nat} (hz : page t' v = 0#64)
    (h : ∀ w ∈ l, w ≠ v → page t' w = page t w) :
    ((if owned (page t v) then [pfn (page t v)] else []) ++ ownedFrames t' l.dedup).Perm
      (ownedFrames t (v :: l).dedup) := by
  have hperm : (v :: l).dedup.Perm (v :: l.dedup.erase v) := by
    rw [perm_ext_iff_of_nodup (nodup_dedup _) (nodup_cons.2 ⟨(nodup_dedup l).not_mem_erase, (nodup_dedup l).erase v⟩)]
    intro w
    by_cases hw : w = v <;> simp [hw, (nodup_dedup l).mem_erase_iff]
  have hsame : (ownedFrames t' l.dedup).Perm (ownedFrames t (l.dedup.erase v)) := by
    have hskip : (l.dedup.filter fun w => owned (page t' w)).Perm
        ((l.dedup.erase v).filter fun w => owned (page t w)) := by
      rw [perm_ext_iff_of_nodup ((nodup_dedup l).filter _) (((nodup_dedup l).erase v).filter _)]
      intro w
      rw [mem_filter, mem_filter, (nodup_dedup l).mem_erase_iff, mem_dedup]
      by_cases hw : w = v
      · rw [hw, hz]
        simp [owned]
      · by_cases hl : w ∈ l
        · simp [hw, hl, h w hl hw]
        · simp [hl]
    refine (hskip.map _).trans (.of_eq (map_congr_left fun w hw => ?_))
    obtain ⟨hw, -⟩ := mem_filter.1 hw
    obtain ⟨hwv, hw⟩ := (nodup_dedup l).mem_erase_iff.1 hw
    rw [h w (mem_dedup.1 hw) hwv]
  refine ((hsame.append_left _).trans ?_).trans ((hperm.symm.filter _).map _)
  rw [filter_cons]
  split <;> exact .refl _

/-- What the loop gives back; it takes no table away. -/
theorem clear_loop_spec (hprev : prev.Invalid) (h : traverse.Invalid) (mem : σ × List Nat) (buffer : List Nat)
    (habs : ∀ a ∈ l, present (page t (vpn a)) = false) :
    (page_table_clear_loop (logged env) t mem prev traverse buffer l).2.2.Perm
        (mem.2 ++ buffer ++ ownedFrames t (l.map vpn).dedup) ∧
      SameLinks 3 t (page_table_clear_loop (logged env) t mem prev traverse buffer l).1 := by
  induction l generalizing prev traverse t mem buffer with
  | nil =>
    simp only [page_table_clear_loop, clear_pml1_pml2_pml3_eq _ _ _ hprev, page_table_page_buffer_flush]
    refine ⟨?_, .refl 3 t⟩
    split
    · simp [ownedFrames, logged]
    · next hnil => simp [ownedFrames, length_eq_zero_iff.1 (Nat.le_zero.1 (Nat.not_lt.1 hnil))]
  | cons addr l ih =>
    have hrest : ∀ a ∈ l, present (page t (vpn a)) = false := fun a ha => habs a (mem_cons_of_mem _ ha)
    obtain ⟨ok, traverse', heq, hinv, hcase⟩ := traverse_none (logged env) h t mem addr
    simp only [page_table_clear_loop, clear_pml1_pml2_pml3_eq _ _ _ hprev, heq]
    rcases hcase with ⟨rfl, hl⟩ | ⟨rfl, -, hz⟩
    · have hset : ∀ w < 2 ^ 36, page (setEntryAt addr 0#64 3 t) w = if w = vpn addr then 0#64 else page t w :=
        fun w hw => page_setEntryAt hl _ hw
      have hone := ownedFrames_cons (l := l.map vpn) (t := t) ((hset _ (vpn_lt addr)).trans (if_pos rfl))
        fun w hw hne => (hset w (by obtain ⟨a, -, rfl⟩ := mem_map.1 hw; exact vpn_lt a)).trans (if_neg hne)
      have habs' : ∀ a ∈ l, present (page (setEntryAt addr 0#64 3 t) (vpn a)) = false := by
        intro a ha
        rw [hset _ (vpn_lt a)]
        split
        · rfl
        · exact hrest a ha
      simp only [entryAt_eq_page hl, habs addr mem_cons_self, Bool.false_eq_true, if_false]
      obtain ⟨hlog, htables⟩ := ih hinv hinv _ _ habs'
      refine ⟨hlog.trans ?_, (sameLinks_setEntryAt 3 t addr _).trans htables⟩
      refine Perm.trans (.of_eq ?_) (hone.append_left (mem.2 ++ buffer))
      split
      · rw [push_log]
        simp
      · simp
    · have hone := ownedFrames_cons (l := l.map vpn) hz fun w _ _ => rfl
      rw [hz] at hone
      have hskip : ({ prev with pml1Valid := false, pml2Valid := false, pml3Valid := false } :
          page_table_traverse_t).Invalid := ⟨rfl, rfl, rfl⟩
      obtain ⟨hlog, htables⟩ := ih hskip hinv mem buffer hrest
      exact ⟨hlog.trans (hone.append_left _), htables⟩

/-- After unmapping and clearing a range, its frames and its empty tables have been given
back exactly if no table is left empty. -/
theorem reclaims_iff (env : Env σ) (t : pml_t) (mem : σ) (addr amount : Nat) :
    let t₀ := page_table_unmap (logged env) t (mem, []) addr amount
    let r := page_table_clear (logged env) t₀ (mem, []) addr amount
    Reclaims t t₀ r.1 r.2.2 addr amount ↔ KeepsEntry t addr amount := by
  intro t₀ r
  have hpage : ∀ v < 2 ^ 36, page t₀ v = if v ∈ vpns addr amount ∧ present (page t v) = true
      then clearPresent (page t v) else page t v := fun v hv => page_unmap_loop _ t _ traverse_create_invalid _ hv
  have habs : ∀ a ∈ pageAddrs addr amount, present (page t₀ (vpn a)) = false := by
    intro a ha
    rw [hpage _ (vpn_lt a)]
    split
    · exact present_clearPresent _
    · next hn => simpa [vpns, mem_map_of_mem ha] using hn
  obtain ⟨hlog, hclear⟩ := clear_loop_spec env traverse_create_invalid traverse_create_invalid (mem, []) [] habs
  have hlinks : SameLinks 3 t r.1 := (sameLinks_unmap_loop _ traverse_create_invalid _).trans hclear
  have hzero : ∀ v < 2 ^ 36, page r.1 v = if v ∈ vpns addr amount then 0#64 else page t v :=
    fun v hv => page_clear_unmap _ t (mem, []) addr amount hv
  constructor
  · rintro h v hv ⟨w, hw, hwv, hne⟩
    by_contra hno
    have hlt := lt_of_mem_vpns hv
    rw [page_eq hw hwv] at hne
    have hfst := (hlinks (path v) le_rfl).1
    cases hb : tableAt (path v) t with
    | none => simp [hb] at hne
    | some before =>
      cases ha : tableAt (path v) r.1 with
      | none => simp [hb, ha] at hfst
      | some after =>
        refine h.tables (path v) (mem_dedup.2 (mem_flatMap.2 ⟨v, hv, by simp⟩)) ⟨before, hb, after, ha, ?_, ?_⟩
        · rw [Bool.eq_false_iff, ne_eq, pml_is_empty_iff]
          intro hall
          simp [hb, hall _ (Nat.mod_lt w (by decide))] at hne
        · refine pml_is_empty_iff.2 fun i hi => ?_
          -- the page at the index is in the range, or was zero
          have hx := page_eq (t := r.1) (w := v / 512 * 512 + i) (v := v) (by omega) (by omega)
          rw [ha, hzero _ (by omega), Option.map_some, Option.getD_some, show (v / 512 * 512 + i) % 512 = i by omega] at hx
          rw [← hx]
          split
          · rfl
          · next hn =>
            by_contra hne'
            exact hno ⟨v / 512 * 512 + i, by omega, by omega, hn, hne'⟩
  · intro hkeep
    refine ⟨fun v hv => (hzero v (lt_of_mem_vpns hv)).trans (if_pos hv), fun v hv hn => ?_, ?_, ?_⟩
    · rw [hzero v hv, if_neg hn, hpage v hv, if_neg fun h => hn h.1]
    · have hnone : unlinked t r.1 (tables addr amount) = [] := by
        rw [unlinked, filterMap_eq_nil_iff]
        intro p hp
        have hfst := (hlinks p (length_of_mem_tables hp)).1
        cases hr : tableAt p r.1 <;> cases ht : tableAt p t <;> simp_all
      rw [hnone, append_nil]
      exact hlog
    · rintro p hp ⟨before, hb, after, ha, hfull, hempty⟩
      rw [Bool.eq_false_iff, ne_eq, pml_is_empty_iff] at hfull
      rw [pml_is_empty_iff] at hempty
      obtain ⟨v, hv, hpv⟩ := mem_flatMap.1 (mem_dedup.1 hp)
      by_cases hlen : p.length < 3
      · -- the entries of a PML3 or PML2 are as they were
        have hsame := (hlinks p hlen.le).2 hlen
        rw [ha, hb] at hsame
        exact hfull fun i hi => (congrFun (Option.some.inj hsame) i).symm.trans (hempty i hi)
      · have hp' : p = path v := by
          simp only [mem_cons, not_mem_nil, or_false] at hpv
          rcases hpv with rfl | rfl | rfl
          · exact absurd (by simp [path]) hlen
          · exact absurd (by simp [path]) hlen
          · rfl
        subst hp'
        have hlt := lt_of_mem_vpns hv
        have hentry : ∀ i < 512, page t (v / 512 * 512 + i) = before.2.entry i := by
          intro i hi
          rw [page_eq (v := v) (by omega) (by omega), hb, show (v / 512 * 512 + i) % 512 = i by omega]
          rfl
        obtain ⟨i, hi, hne⟩ : ∃ i < 512, before.2.entry i ≠ 0#64 := by
          by_contra hall
          exact hfull fun i hi => by_contra fun hne => hall ⟨i, hi, hne⟩
        obtain ⟨w, hw, hwv, hnot, hwne⟩ := hkeep v hv ⟨v / 512 * 512 + i, by omega, by omega, by rwa [hentry i hi]⟩
        have hafter := page_eq (t := r.1) hw hwv
        rw [ha, hzero w hw, if_neg hnot] at hafter
        exact hwne (hafter.trans (hempty _ (Nat.mod_lt _ (by decide))))

/-- A table whose only page is the first one; the page is owned. -/
def singlePage : pml_t :=
  .mk (fun _ => PML_PRESENT) fun _ => .mk (fun _ => PML_PRESENT) fun _ => .mk (fun _ => PML_PRESENT) fun _ =>
    .mk (fun i => if i = 0 then PML_PRESENT ||| PML_OWNED else 0#64) fun _ => .null

/-- The PML1 table of the page is empty afterwards, and still there. -/
theorem singlePage_not_reclaimed :
    let t₀ := page_table_unmap (logged noFrames) singlePage ((), []) 0 1
    let r := page_table_clear (logged noFrames) t₀ ((), []) 0 1
    r.2.2 = [0] ∧ ¬ Reclaims singlePage t₀ r.1 r.2.2 0 1 := by
  intro t₀ r
  have hafter : (tableAt [0, 0, 0] r.1).map (fun x => pml_is_empty x.2) = some true := by decide +kernel
  obtain ⟨after, ha, hempty⟩ := Option.map_eq_some_iff.1 hafter
  exact ⟨by decide +kernel, fun h => h.tables [0, 0, 0] (by decide) ⟨_, rfl, after, ha, by decide +kernel, hempty⟩⟩

end Patchwork.Paging
