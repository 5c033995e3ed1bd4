import Patchwork.Mem.Pin
import Patchwork.Mem.Tags
/-!
# Pin depths

The depth of a page is read off the two places it is kept in. Each loop of
`space.c` over a region then changes depths by one for each time it comes to a
page, whether the count is in the bit, in the map, or moves between them, and a
pin that fails halfway takes back what it has done.

The key of a page in the map is its address. Two addresses that differ above bit
47 have the same page, so the regions here are canonical.
-/

variable {v : Nat}

namespace Patchwork.Paging

open Lib

namespace Entry

theorem pinned_eq (e : pml_entry_t) : pinned e = decide (field e 10 1 = 1) := getLsbD_eq_field e 10

@[simp] theorem pinned_setPinned (e : pml_entry_t) (b : Bool) : pinned (setPinned e b) = b := by
  rw [pinned_eq, setPinned, field_setField_self (by decide)]
  cases b <;> rfl

@[simp] theorem present_setPinned (e : pml_entry_t) (b : Bool) : present (setPinned e b) = present e := by
  rw [present_eq, present_eq, setPinned, field_setField_of_apart (by decide) (by decide)]

theorem pinned_mapped (flags : pml_flags_t) (pfn id : Nat) :
    pinned (setCallbackId (setPfn flags pfn) id) = pinned flags := by
  rw [pinned_eq, pinned_eq, setCallbackId, setPfn, field_setField_of_apart (by decide) (by decide),
    field_setField_of_apart (by decide) (by decide), field_setField_of_apart (by decide) (by decide)]

end Entry

variable {σ : Type} (env : Env σ)

theorem is_mapped_loop_iff {traverse : page_table_traverse_t} (h : traverse.Invalid) (pml4 : pml_t) (mem : σ)
    (l : List Nat) :
    page_table_is_mapped_loop env pml4 mem traverse l = true ↔ ∀ v ∈ l.map vpn, Entry.present (page pml4 v) = true := by
  induction l generalizing traverse with
  | nil => simp [page_table_is_mapped_loop]
  | cons addr l ih =>
    obtain ⟨ok, traverse', heq, hinv, hcase⟩ := traverse_none env h pml4 mem addr
    rw [page_table_is_mapped_loop, heq, List.map_cons, List.forall_mem_cons]
    rcases hcase with ⟨rfl, hl⟩ | ⟨rfl, -, hz⟩
    · simp only [entryAt_eq_page hl]
      cases Entry.present (page pml4 (vpn addr)) with
      | true => simpa using ih hinv
      | false => simp
    · simp [hz]

theorem is_mapped_iff (pml4 : pml_t) (mem : σ) (addr amount : Nat) :
    page_table_is_mapped env pml4 mem addr amount = true ↔
      ∀ v ∈ vpns addr amount, Entry.present (page pml4 v) = true :=
  is_mapped_loop_iff env traverse_create_invalid pml4 mem _

/-- The canonical address of page `v`. -/
def pageAddr (v : Nat) : Nat := if v < 2 ^ 35 then v * PAGE_SIZE else v * PAGE_SIZE + (2 ^ 64 - 2 ^ 48)

theorem vpn_pageAddr (hv : v < 2 ^ 36) : vpn (pageAddr v) = v := by
  unfold vpn pageAddr
  rw [PAGE_SIZE]
  split <;> omega

/-- The address is that of its page. -/
def Canonical (addr : Nat) : Prop := pageAddr (vpn addr) = addr

end Patchwork.Paging

namespace Patchwork.Space

open List Function Paging

variable {σ τ : Type} (env : Env σ)

/-- How often page `v` is pinned. -/
def depth (space : space_t σ τ) (v : Nat) : Nat :=
  if Entry.pinned (page space.pageTable v) then (space.pinnedPages (pageAddr v)).getD 1 else 0

/-- Pinned pages are present, and the entries of the map are of pinned pages. -/
structure PinInv (space : space_t σ τ) : Prop where
  present : ∀ v < 2 ^ 36, Entry.pinned (page space.pageTable v) = true → Entry.present (page space.pageTable v) = true
  counts : ∀ key pinCount, space.pinnedPages key = some pinCount →
    (0 < pinCount ∧ pinCount < 2 ^ 64) ∧ ∃ v < 2 ^ 36, pageAddr v = key ∧ Entry.pinned (page space.pageTable v) = true

variable {space : space_t σ τ}

theorem PinInv.pinned_iff (h : PinInv space) (v : Nat) :
    Entry.pinned (page space.pageTable v) = true ↔ 0 < depth space v := by
  unfold depth
  split
  · rename_i hp
    refine iff_of_true hp ?_
    cases hc : space.pinnedPages (pageAddr v) with
    | none => exact Nat.one_pos
    | some c => exact (h.counts _ _ hc).1.1
  · rename_i hp
    exact iff_of_false hp (Nat.lt_irrefl 0)

theorem PinInv.key_pinned (h : PinInv space) {pinCount : Nat} (hv : v < 2 ^ 36)
    (hc : space.pinnedPages (pageAddr v) = some pinCount) : Entry.pinned (page space.pageTable v) = true := by
  obtain ⟨-, w, hw, hkey, hp⟩ := h.counts _ _ hc
  have heq : w = v := by rw [← vpn_pageAddr hw, hkey, vpn_pageAddr hv]
  rwa [heq] at hp

/-- The depths are `d`, and no page has gone. -/
structure Depths (d : Nat → Nat) (space space' : space_t σ τ) : Prop where
  inv : PinInv space'
  present : ∀ v < 2 ^ 36, Entry.present (page space.pageTable v) = true → Entry.present (page space'.pageTable v) = true
  depth : ∀ v < 2 ^ 36, depth space' v = d v

theorem Depths.refl (h : PinInv space) : Depths (Space.depth space) space space :=
  ⟨h, fun _ _ hp => hp, fun _ _ => rfl⟩

theorem Depths.trans {d d' : Nat → Nat} {space1 space' : space_t σ τ} (h : Depths d space space1)
    (h' : Depths d' space1 space') : Depths d' space space' :=
  ⟨h'.inv, fun v hv hp => h'.present v hv (h.present v hv hp), h'.depth⟩

theorem Depths.congr {d d' : Nat → Nat} {space' : space_t σ τ} (h : Depths d space space')
    (heq : ∀ v < 2 ^ 36, d v = d' v) : Depths d' space space' :=
  ⟨h.inv, h.present, fun v hv => (h.depth v hv).trans (heq v hv)⟩

theorem Depths.mem (h : PinInv space) (mem : σ) : Depths (Space.depth space) space { space with mem := mem } :=
  ⟨⟨h.present, h.counts⟩, fun _ _ hp => hp, fun _ _ => rfl⟩

/-! ## One page -/

section Page
variable {space : space_t σ τ} {addr : Nat}

theorem page_setPinned (hl : Linked addr 3 space.pageTable) (b : Bool) {w : Nat} (hw : w < 2 ^ 36) :
    page (setPinned space addr b).pageTable w =
      if w = vpn addr then Entry.setPinned (page space.pageTable w) b else page space.pageTable w := by
  rw [setPinned, page_setEntryAt hl _ hw, entryAt_eq_page hl]
  split
  · rename_i heq
    rw [heq]
  · rfl

theorem depth_self (space : space_t σ τ) (ha : Canonical addr) : depth space (vpn addr) =
    if Entry.pinned (page space.pageTable (vpn addr)) then (space.pinnedPages addr).getD 1 else 0 := by
  rw [depth, show pageAddr (vpn addr) = addr from ha]

variable {space' : space_t σ τ}

/-- Only the page of `addr`, which is there, and its count are changed. -/
theorem depths_of_one {d : Nat → Nat} {pinned : Bool} {count : Option Nat} (hi : PinInv space) (ha : Canonical addr)
    (hpage : ∀ w < 2 ^ 36, w ≠ vpn addr → page space'.pageTable w = page space.pageTable w)
    (hkeys : ∀ key ≠ addr, space'.pinnedPages key = space.pinnedPages key)
    (hpres : Entry.present (page space'.pageTable (vpn addr)) = true)
    (hpin : Entry.pinned (page space'.pageTable (vpn addr)) = pinned) (hcount : space'.pinnedPages addr = count)
    (hbound : ∀ c ∈ count, (0 < c ∧ c < 2 ^ 64) ∧ pinned = true)
    (hself : d (vpn addr) = if pinned then count.getD 1 else 0) (hother : ∀ w ≠ vpn addr, d w = depth space w) :
    Depths d space space' := by
  refine ⟨⟨fun w hw hp => ?_, fun key c hc => ?_⟩, fun w hw hp => ?_, fun w hw => ?_⟩
  · by_cases hne : w = vpn addr
    · rw [hne]
      exact hpres
    · rw [hpage w hw hne] at hp ⊢
      exact hi.present w hw hp
  · by_cases hk : key = addr
    · rw [hk, hcount] at hc
      exact ⟨(hbound c hc).1, vpn addr, vpn_lt addr, ha.trans hk.symm, hpin.trans (hbound c hc).2⟩
    · rw [hkeys key hk] at hc
      obtain ⟨hpos, w, hw, rfl, hp⟩ := hi.counts key c hc
      have hne : w ≠ vpn addr := fun heq => hk (heq ▸ ha)
      exact ⟨hpos, w, hw, rfl, by rw [hpage w hw hne]; exact hp⟩
  · by_cases hne : w = vpn addr
    · rw [hne]
      exact hpres
    · rw [hpage w hw hne]
      exact hp
  · by_cases hne : w = vpn addr
    · rw [hne, hself, depth_self _ ha, hpin, hcount]
    · have hk : pageAddr w ≠ addr := fun hk => hne (by rw [← hk, vpn_pageAddr hw])
      rw [hother w hne, depth, depth, hpage w hw hne, hkeys _ hk]

/-- `pinDec` takes one from the depth of its page. -/
theorem pinDec_depths (hi : PinInv space) (hl : Linked addr 3 space.pageTable) (ha : Canonical addr) :
    Depths (fun w => depth space w - if w = vpn addr then 1 else 0) space (pinDec space addr) := by
  have hother : ∀ w ≠ vpn addr, depth space w - (if w = vpn addr then 1 else 0) = depth space w := by
    intro w hw
    rw [if_neg hw, Nat.sub_zero]
  have hunpin := (page_setPinned hl false (vpn_lt addr)).trans (if_pos rfl)
  have hrest := fun w hw hne => (page_setPinned hl false (w := w) hw).trans (if_neg hne)
  have hget := depth_self space ha
  unfold pinDec
  simp only [entryAt_eq_page hl]
  split
  · rename_i hskip
    have hpin : Entry.pinned (page space.pageTable (vpn addr)) = false := by
      by_contra hne
      rw [Bool.not_eq_false] at hne
      rw [hi.present _ (vpn_lt addr) hne, hne] at hskip
      cases hskip
    rw [hpin] at hget
    refine (Depths.refl hi).congr fun w _ => ?_
    split
    · rename_i heq
      rw [heq, hget]
      rfl
    · rfl
  · rename_i hboth
    simp only [Bool.or_eq_true, Bool.not_eq_true', not_or, Bool.not_eq_false] at hboth
    obtain ⟨hp, hpin⟩ := hboth
    rw [hpin, if_pos rfl] at hget
    split
    · -- The bit alone held the one pin.
      rename_i hnone
      rw [hnone] at hget
      refine depths_of_one hi ha hrest (fun _ _ => rfl) ?_ (by rw [hunpin, Entry.pinned_setPinned]) hnone
        (by rintro _ ⟨⟩) ?_ hother
      · rw [hunpin, Entry.present_setPinned]
        exact hp
      · simp [hget]
    · rename_i c hsome
      obtain ⟨⟨hc0, hc⟩, -⟩ := hi.counts _ _ hsome
      rw [hsome] at hget
      rw [show (c + 2 ^ 64 - 1) % 2 ^ 64 = c - 1 by omega]
      split
      · -- The entry goes, and with it the bit.
        rename_i hone
        refine depths_of_one hi ha hrest (fun key hk => update_of_ne hk ..) ?_
          (hunpin.symm ▸ Entry.pinned_setPinned _ _) (update_self ..) (by rintro _ ⟨⟩) ?_ hother
        · exact hunpin.symm ▸ (Entry.present_setPinned _ _).trans hp
        · simp [hget, hone]
      · rename_i hpos
        refine depths_of_one hi ha (fun _ _ _ => rfl) (fun key hk => update_of_ne hk ..) hp hpin
          (update_self ..) ?_ (by simp [hget]) hother
        rintro _ ⟨⟩
        exact ⟨⟨Nat.pos_of_ne_zero hpos, by omega⟩, rfl⟩

/-- `pinInc` adds one to the depth of its page, or fails and changes none. -/
theorem pinInc_depths (hi : PinInv space) (hl : Linked addr 3 space.pageTable) (ha : Canonical addr)
    (hp : Entry.present (page space.pageTable (vpn addr)) = true) (hd : depth space (vpn addr) + 1 < 2 ^ 64) :
    ∃ ok space', pinInc env space addr = (ok, space') ∧
      Depths (fun w => depth space w + if ok = true ∧ w = vpn addr then 1 else 0) space space' := by
  have hother : ∀ w ≠ vpn addr, depth space w + (if true = true ∧ w = vpn addr then 1 else 0) = depth space w := by
    intro w hw
    rw [if_neg (mt And.right hw), Nat.add_zero]
  have hget := depth_self space ha
  unfold pinInc
  simp only [entryAt_eq_page hl, hp, Bool.not_true, Bool.false_eq_true, if_false]
  cases hpin : Entry.pinned (page space.pageTable (vpn addr)) with
  | false =>
    have hpage := (page_setPinned hl true (vpn_lt addr)).trans (if_pos rfl)
    have hkey : space.pinnedPages addr = none := by
      cases hc : space.pinnedPages addr with
      | none => rfl
      | some c =>
        rw [hi.key_pinned (vpn_lt addr) ((congrArg _ ha).trans hc)] at hpin
        cases hpin
    rw [hpin] at hget
    refine ⟨true, _, rfl, depths_of_one hi ha (fun w hw hne => (page_setPinned hl true hw).trans (if_neg hne))
      (fun _ _ => rfl) ?_ (by rw [hpage, Entry.pinned_setPinned]) hkey (by rintro _ ⟨⟩) (by simp [hget]) hother⟩
    rw [hpage, Entry.present_setPinned]
    exact hp
  | true =>
    rw [hpin, if_pos rfl] at hget
    -- The depth of the page becomes `c`.
    have hset : ∀ (c : Nat) (mem : σ), c = depth space (vpn addr) + 1 →
        Depths (fun w => depth space w + if true = true ∧ w = vpn addr then 1 else 0) space
          (setPinCount { space with mem := mem } addr (some c)) := by
      intro c mem hc
      refine depths_of_one hi ha (fun _ _ _ => rfl) (fun key hk => update_of_ne hk ..) hp hpin
        (update_self ..) ?_ (by simp [hc]) hother
      rintro _ ⟨⟩
      exact ⟨by omega, rfl⟩
    have hkeep : ∀ mem, Depths (fun w => depth space w + if false = true ∧ w = vpn addr then 1 else 0) space
        { space with mem := mem } := by
      intro mem
      refine (Depths.mem hi mem).congr fun w _ => ?_
      simp
    simp only [Bool.not_true, Bool.false_eq_true, if_false]
    split
    · rename_i c hsome
      rw [hsome] at hget
      have hlt : c + 1 < 2 ^ 64 := by rwa [show depth space (vpn addr) = c from hget] at hd
      rw [Nat.mod_eq_of_lt hlt]
      exact ⟨true, _, rfl, hset (c + 1) space.mem (by rw [hget]; rfl)⟩
    · rename_i hnone
      rw [hnone] at hget
      rcases env.malloc space.mem pinnedPageSize with ⟨_ | _, mem⟩
      · exact ⟨false, _, rfl, hkeep mem⟩
      · simp only
        rcases env.malloc mem 0 with ⟨_ | _, mem'⟩
        · exact ⟨false, _, rfl, hkeep mem'⟩
        · exact ⟨true, _, rfl, hset 2 mem' (by rw [hget]; rfl)⟩

end Page

/-! ## Loops -/

/-- How often the list comes to page `w`. -/
def visits (l : List Nat) (w : Nat) : Nat := (l.map vpn).count w

theorem visits_cons (addr : Nat) (l : List Nat) (w : Nat) :
    visits (addr :: l) w = visits l w + if w = vpn addr then 1 else 0 := by
  simp only [visits, map_cons, count_cons, beq_iff_eq]
  congr 1
  exact if_congr eq_comm rfl rfl

theorem visits_append (l l' : List Nat) (w : Nat) : visits (l ++ l') w = visits l w + visits l' w := by
  rw [visits, map_append, count_append]
  rfl

theorem depth_absent (h : page space.pageTable v = 0#64) : depth space v = 0 := by
  rw [depth, h]
  rfl

theorem pin_depth_dec_loop_depths {traverse : page_table_traverse_t} (ht : traverse.Invalid)
    (hi : PinInv space) {l : List Nat} (hl : ∀ addr ∈ l, Canonical addr) :
    Depths (fun w => depth space w - visits l w) space (space_pin_depth_dec_loop env traverse l space) := by
  induction l generalizing traverse space with
  | nil => exact (Depths.refl hi).congr fun w _ => rfl
  | cons addr l ih =>
    obtain ⟨ha, hl⟩ := forall_mem_cons.1 hl
    obtain ⟨ok, traverse', heq, hinv, hcase⟩ := traverse_none env ht space.pageTable space.mem addr
    rw [space_pin_depth_dec_loop, heq]
    rcases hcase with ⟨rfl, hlink⟩ | ⟨rfl, -, hz⟩
    · have hone := pinDec_depths hi hlink ha
      refine hone.trans ((ih hinv hone.inv hl).congr fun w hw => ?_)
      rw [hone.depth w hw, visits_cons, Nat.sub_sub, Nat.add_comm (visits l w)]
    · -- The page is absent, so its depth is 0 already.
      refine (ih hinv hi hl).congr fun w hw => ?_
      rw [visits_cons]
      split
      · rename_i hwv
        rw [hwv, depth_absent hz, Nat.zero_sub, Nat.zero_sub]
      · rfl

theorem pin_depth_dec_depths (hi : PinInv space) (address amount : Nat)
    (hl : ∀ addr ∈ pageAddrs (ROUND_DOWN address PAGE_SIZE) amount, Canonical addr) :
    Depths (fun w => depth space w - visits (pageAddrs (ROUND_DOWN address PAGE_SIZE) amount) w) space
      (space_pin_depth_dec env space address amount) :=
  pin_depth_dec_loop_depths env traverse_create_invalid hi hl

theorem pageAddrs_succ (address i : Nat) :
    pageAddrs address (i + 1) = pageAddrs address i ++ [(address + i * PAGE_SIZE) % 2 ^ 64] := by
  rw [pageAddrs, range_succ, map_append]
  rfl

theorem visits_mono (address : Nat) {m n : Nat} (h : m ≤ n) (w : Nat) :
    visits (pageAddrs address m) w ≤ visits (pageAddrs address n) w :=
  (((range_sublist.2 h).map _).map vpn).count_le w

theorem ROUND_DOWN_idem (address : Nat) :
    ROUND_DOWN (ROUND_DOWN address PAGE_SIZE) PAGE_SIZE = ROUND_DOWN address PAGE_SIZE := by
  simp only [ROUND_DOWN, PAGE_SIZE]
  omega

/-- The loop after `i` pages. If it fails, these are taken back. -/
theorem pin_depth_inc_loop_depths {address : Nat} (hround : ROUND_DOWN address PAGE_SIZE = address) {space0 : space_t σ τ}
    (n : Nat) : ∀ {i : Nat} {traverse : page_table_traverse_t} {space : space_t σ τ}, traverse.Invalid →
      (∀ addr ∈ pageAddrs address (i + n), Canonical addr) →
      (∀ v ∈ vpns address (i + n), Entry.present (page space0.pageTable v) = true) →
      (∀ w < 2 ^ 36, depth space0 w + visits (pageAddrs address (i + n)) w < 2 ^ 64) →
      Depths (fun w => depth space0 w + visits (pageAddrs address i) w) space0 space →
      ∃ ok space', space_pin_depth_inc_loop env address i traverse
          ((range' i n).map fun j => (address + j * PAGE_SIZE) % 2 ^ 64) space = (ok, space') ∧
        Depths (fun w => depth space0 w + if ok = true then visits (pageAddrs address (i + n)) w else 0) space0 space' := by
  induction n with
  | zero => exact fun _ _ _ _ h => ⟨true, _, rfl, h⟩
  | succ n ih =>
    intro i traverse space ht hcan hpres hbound hd
    have hsplit : i + (n + 1) = i + 1 + n := by omega
    have hmem : (address + i * PAGE_SIZE) % 2 ^ 64 ∈ pageAddrs address (i + (n + 1)) :=
      mem_map.2 ⟨i, mem_range.2 (by omega), rfl⟩
    generalize haddr : (address + i * PAGE_SIZE) % 2 ^ 64 = addr at hmem
    have hstep : ∀ w, visits (pageAddrs address (i + 1)) w =
        visits (pageAddrs address i) w + if w = vpn addr then 1 else 0 := by
      intro w
      rw [pageAddrs_succ, visits_append, haddr, visits_cons]
      simp [visits]
    have hle := fun w => visits_mono address (show i + 1 ≤ i + (n + 1) by omega) w
    obtain ⟨ok, traverse', heq, hinv, hcase⟩ := traverse_none env ht space.pageTable space.mem addr
    have hp : Entry.present (page space.pageTable (vpn addr)) = true :=
      hd.present _ (vpn_lt addr) (hpres _ (mem_map.2 ⟨addr, hmem, rfl⟩))
    rw [range'_succ, map_cons, haddr, space_pin_depth_inc_loop, heq]
    rcases hcase with ⟨rfl, hlink⟩ | ⟨rfl, -, hz⟩
    · have hdepth := hd.depth _ (vpn_lt addr)
      have hb := hbound _ (vpn_lt addr)
      have hv := hle (vpn addr)
      rw [hstep, if_pos rfl] at hv
      obtain ⟨ok, space1, hinc, hone⟩ := pinInc_depths env hd.inv hlink (hcan addr hmem) hp (by omega)
      simp only [hinc]
      cases ok with
      | true =>
        rw [hsplit] at hcan hpres hbound ⊢
        refine ih hinv hcan hpres hbound (hd.trans (hone.congr fun w hw => ?_))
        rw [hd.depth w hw, hstep]
        simp only [true_and]
        omega
      | false =>
        refine ⟨false, _, rfl, ?_⟩
        have hcan' : ∀ addr ∈ pageAddrs (ROUND_DOWN address PAGE_SIZE) i, Canonical addr := by
          rw [hround]
          intro a ha
          obtain ⟨j, hj, rfl⟩ := mem_map.1 ha
          exact hcan _ (mem_map.2 ⟨j, mem_range.2 (by have := mem_range.1 hj; omega), rfl⟩)
        have hdec := pin_depth_dec_depths env hone.inv address i hcan'
        rw [hround] at hdec
        refine (hd.trans hone).trans (hdec.congr fun w hw => ?_)
        rw [hone.depth w hw, hd.depth w hw]
        simp
    · rw [hz] at hp
      cases hp

theorem pin_depth_inc_depths (hi : PinInv space) (address amount : Nat)
    (hcan : ∀ addr ∈ pageAddrs (ROUND_DOWN address PAGE_SIZE) amount, Canonical addr)
    (hpres : ∀ v ∈ vpns (ROUND_DOWN address PAGE_SIZE) amount, Entry.present (page space.pageTable v) = true)
    (hbound : ∀ w < 2 ^ 36, depth space w + visits (pageAddrs (ROUND_DOWN address PAGE_SIZE) amount) w < 2 ^ 64) :
    ∃ ok space', space_pin_depth_inc env space address amount = (ok, space') ∧
      Depths (fun w => depth space w +
        if ok = true then visits (pageAddrs (ROUND_DOWN address PAGE_SIZE) amount) w else 0) space space' := by
  rw [← Nat.zero_add amount] at hcan hpres hbound
  obtain ⟨ok, space', heq, hd⟩ := pin_depth_inc_loop_depths env (ROUND_DOWN_idem address) amount (i := 0)
    traverse_create_invalid
    hcan hpres hbound (.refl hi)
  rw [Nat.zero_add] at hd
  refine ⟨ok, space', ?_, hd⟩
  rw [space_pin_depth_inc, pageAddrs, range_eq_range']
  exact heq

/-! ## Populating -/

theorem vpns_one (addr : Nat) : vpns addr 1 = [vpn (addr % 2 ^ 64)] := by
  simp [vpns, pageAddrs]

theorem map_depths (hi : PinInv space) {mem mem' : σ} {addr phys : Nat} {ok : Bool} {t : pml_t}
    (h : page_table_map env space.pageTable mem addr phys 1 stackFlags PML_CALLBACK_NONE = (ok, t, mem')) :
    Depths (depth space) space { space with pageTable := t, mem := mem' } := by
  have hcases : ∀ v < 2 ^ 36, Entry.pinned (page t v) = Entry.pinned (page space.pageTable v) ∧
      (Entry.present (page space.pageTable v) = true → Entry.present (page t v) = true) := by
    intro v hv
    rw [page_table_map, if_neg (by decide)] at h
    have hcase := mapLoop_cases env space.pageTable mem stackFlags PML_CALLBACK_NONE traverse_create_invalid
      ((pageAddrs addr 1).zip ((pageAddrs phys 1).map (· / PAGE_SIZE))) hv
    rw [h] at hcase
    rcases hcase with heq | ⟨habs, pfn, heq⟩
    · exact ⟨congrArg _ heq, fun hp => (congrArg _ heq).trans hp⟩
    · have hunpinned : Entry.pinned (page space.pageTable v) = false := by
        by_contra hne
        rw [hi.present v hv (by simpa using hne)] at habs
        cases habs
      refine ⟨by rw [heq, Entry.pinned_mapped, hunpinned]; rfl, fun hp => ?_⟩
      rw [habs] at hp
      cases hp
  refine ⟨⟨fun v hv hpin => ?_, fun key c hc => ?_⟩, fun v hv => (hcases v hv).2, fun v hv => ?_⟩
  · exact (hcases v hv).2 (hi.present v hv ((hcases v hv).1.symm.trans hpin))
  · obtain ⟨hpos, v, hv, hkey, hpin⟩ := hi.counts key c hc
    exact ⟨hpos, v, hv, hkey, (hcases v hv).1.trans hpin⟩
  · simp only [depth, (hcases v hv).1]

/-- Populating pins nothing, and on success every page of the region is there. -/
theorem populate_loop_depths {l : List Nat} (hl : ∀ addr ∈ l, addr < 2 ^ 64) (hi : PinInv space) :
    ∃ ok space', space_populate_user_region_loop env l space = (ok, space') ∧ Depths (depth space) space space' ∧
      (ok = true → ∀ v ∈ l.map vpn, Entry.present (page space'.pageTable v) = true) := by
  induction l generalizing space with
  | nil => exact ⟨true, space, rfl, .refl hi, fun _ => nofun⟩
  | cons addr l ih =>
    obtain ⟨haddr, hl⟩ := forall_mem_cons.1 hl
    -- Once the page of `addr` is there, the rest keeps it.
    have hnext : ∀ space1 : space_t σ τ, Depths (depth space) space space1 →
        Entry.present (page space1.pageTable (vpn addr)) = true →
        ∃ ok space', space_populate_user_region_loop env l space1 = (ok, space') ∧ Depths (depth space) space space' ∧
          (ok = true → ∀ v ∈ (addr :: l).map vpn, Entry.present (page space'.pageTable v) = true) := by
      intro space1 h1 hp
      obtain ⟨ok, space', heq, hd, hall⟩ := ih hl h1.inv
      refine ⟨ok, space', heq, h1.trans (hd.congr h1.depth), fun hok v hv => ?_⟩
      rcases mem_cons.1 hv with rfl | hv
      · exact hd.present _ (vpn_lt addr) hp
      · exact hall hok v hv
    rw [space_populate_user_region_loop]
    split
    · rename_i hmapped
      refine hnext space (.refl hi) ?_
      rw [is_mapped_iff, vpns_one, Nat.mod_eq_of_lt haddr] at hmapped
      exact hmapped _ mem_cons_self
    · rcases env.allocPages space.mem 1 with ⟨_ | pfns, mem⟩
      · exact ⟨false, _, rfl, .mem hi mem, nofun⟩
      · have hspec := (maps_map env addr (pfns 0 * PAGE_SIZE % 2 ^ 64) 1 (show Entry.present stackFlags = true by decide)
          space.pageTable mem PML_CALLBACK_NONE (by decide)).2
        simp only at hspec ⊢
        rcases hres : page_table_map env space.pageTable mem addr (pfns 0 * PAGE_SIZE % 2 ^ 64) 1 stackFlags
          PML_CALLBACK_NONE with ⟨_ | _, t, mem'⟩
        · have hmap := map_depths env hi hres
          exact ⟨false, _, rfl, hmap.trans ((Depths.mem hmap.inv _).congr hmap.depth), nofun⟩
        · refine hnext _ (map_depths env hi hres) ?_
          rw [hres, vpns_one, Nat.mod_eq_of_lt haddr] at hspec
          exact ((hspec rfl).2 _ mem_cons_self).2.1

theorem populateUnless_depths (hi : PinInv space) (mapped : Bool) (buffer pageAmount : Nat)
    (hmapped : mapped = true → ∀ v ∈ vpns buffer pageAmount, Entry.present (page space.pageTable v) = true) :
    ∃ ok space', populateUnless env mapped space buffer pageAmount = (ok, space') ∧
      Depths (depth space) space space' ∧
      (ok = true → ∀ v ∈ vpns buffer pageAmount, Entry.present (page space'.pageTable v) = true) := by
  cases mapped with
  | true => exact ⟨true, space, rfl, .refl hi, fun _ => hmapped rfl⟩
  | false =>
    refine populate_loop_depths env (fun addr haddr => ?_) hi
    obtain ⟨i, -, rfl⟩ := mem_map.1 haddr
    exact Nat.mod_lt _ (by decide)

end Patchwork.Space
