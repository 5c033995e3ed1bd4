import Patchwork.Libstd.HeapAlloc
/-!
# Blocks that are zero

A block with the flag `_HEAP_ZEROED` that is not being handed out is the end of a
run of pages that nobody has had yet: its data is zero, it ends with the run and
does not start it. Such a block is never merged into one with the flag, since the
next block starts a run, and a block that starts a run has been handed out before.
So no old header can come to lie in the data of a block with the flag.
-/

namespace Patchwork.Heap

open List Function Lib

variable {env : Env} {h h' : heap_t} {a b n x : Nat} {held e e' : Option Nat} {hd : heap_header_t}
  {l l₁ l₂ : List Nat}

/-- The address is in the data of the block. -/
def InData (h : heap_t) (b x : Nat) : Prop := b + HEADER_SIZE ≤ x ∧ x < (h.segment b).stop

instance (h : heap_t) (b x : Nat) : Decidable (InData h b x) := inferInstanceAs (Decidable (_ ∧ _))

/-- What is said of the blocks with the flag, `e` being the one that is handed
out. -/
structure Clean (h : heap_t) (e : Option Nat) : Prop where
  zero : ∀ b ∈ h.heapList, (h.header b).zeroed = true → ∀ x, InData h b x → h.mem x = 0
  tail : ∀ b ∈ h.heapList, (h.header b).zeroed = true → e ≠ some b →
    ∃ r ∈ h.runs, r.1 < b ∧ (h.segment b).stop = r.stop
  busy : ∀ b ∈ h.heapList, (h.header b).allocated = true → e ≠ some b → (h.header b).zeroed = false
  runs : ∀ r ∈ h.runs, ∀ s ∈ h.runs, ∀ x, r.Contains x → s.Contains x → r = s
  large : ∀ b ∈ h.large, (h.header b).zeroed = false

theorem InData.contains (hx : InData h b x) : (h.segment b).Contains x :=
  ⟨(Nat.le_add_right _ _).trans hx.1, hx.2⟩

theorem contains_header (hx : a ≤ x ∧ x < a + HEADER_SIZE) : (h.segment a).Contains x := by
  rw [Segment.Contains, stop_segment]
  exact ⟨hx.1, hx.2.trans_le (Nat.le_add_right _ _)⟩

theorem Inv.header_notData (hi : Inv h held) (ha : a ∈ h.heapList) (hb : b ∈ h.heapList) (hx : InData h b x) :
    ¬ (a ≤ x ∧ x < a + HEADER_SIZE) := by
  intro hh
  obtain rfl := hi.eq_of_contains ha hb (contains_header hh) hx.contains
  exact absurd hx.1 (Nat.not_le_of_lt hh.2)

theorem mem_setHeader (hx : ¬ (a ≤ x ∧ x < a + HEADER_SIZE)) : (h.setHeader env a hd).mem x = h.mem x := if_neg hx

/-- What `Clean` says of one block. -/
structure CleanAt (h : heap_t) (e : Option Nat) (b : Nat) : Prop where
  zero : (h.header b).zeroed = true → ∀ x, InData h b x → h.mem x = 0
  tail : (h.header b).zeroed = true → e ≠ some b → ∃ r ∈ h.runs, r.1 < b ∧ (h.segment b).stop = r.stop
  busy : (h.header b).allocated = true → e ≠ some b → (h.header b).zeroed = false

/-- The header and the data of the block stay, and so do the runs. -/
theorem CleanAt.same (hb : CleanAt h e b) (hheader : h'.header b = h.header b)
    (hmem : (h.header b).zeroed = true → ∀ x, InData h b x → h'.mem x = h.mem x) (hruns : ∀ r ∈ h.runs, r ∈ h'.runs)
    (he : e' ≠ some b → e ≠ some b) : CleanAt h' e' b := by
  have hseg : h'.segment b = h.segment b := by
    rw [heap_t.segment, heap_t.size, hheader]
    rfl
  constructor
  · intro hz x hx
    rw [hheader] at hz
    rw [InData, hseg] at hx
    rw [hmem hz x hx]
    exact hb.zero hz x hx
  · intro hz hne
    rw [hheader] at hz
    rw [hseg]
    obtain ⟨r, hr, htail⟩ := hb.tail hz (he hne)
    exact ⟨r, hruns r hr, htail⟩
  · intro hall hne
    rw [hheader] at hall ⊢
    exact hb.busy hall (he hne)

namespace Clean

theorem block (hc : Clean h e) (hb : b ∈ h.heapList) : CleanAt h e b := ⟨hc.zero b hb, hc.tail b hb, hc.busy b hb⟩

theorem of_at (hat : ∀ b ∈ h.heapList, CleanAt h e b)
    (hruns : ∀ r ∈ h.runs, ∀ s ∈ h.runs, ∀ x, r.Contains x → s.Contains x → r = s)
    (hlarge : ∀ b ∈ h.large, (h.header b).zeroed = false) : Clean h e :=
  ⟨fun b hb => (hat b hb).zero, fun b hb => (hat b hb).tail, fun b hb => (hat b hb).busy, hruns, hlarge⟩

/-- The memory outside the blocks with the flag is written. -/
theorem frame (hc : Clean h e) (hlist : h'.heapList = h.heapList) (hruns : h'.runs = h.runs)
    (hheader : ∀ b ∈ h.heapList, h'.header b = h.header b)
    (hmem : ∀ b ∈ h.heapList, (h.header b).zeroed = true → ∀ x, InData h b x → h'.mem x = h.mem x)
    (hlarge : ∀ b ∈ h'.large, (h'.header b).zeroed = false) : Clean h' e := by
  refine of_at (fun b hb => ?_) (hruns ▸ hc.runs) hlarge
  rw [hlist] at hb
  exact (hc.block hb).same (hheader b hb) (hmem b hb) (fun _ hr => hruns ▸ hr) id

theorem same (hc : Clean h e) (hs : SameBlocks h h') : Clean h' e := by
  refine hc.frame hs.heapList hs.runs (fun b _ => congrFun hs.header b) (fun _ _ _ x _ => congrFun hs.mem x) ?_
  rw [hs.large, hs.header]
  exact hc.large

theorem weaken (hc : Clean h none) : Clean h e :=
  of_at (fun _ hb => (hc.block hb).same rfl (fun _ _ _ => rfl) (fun _ hr => hr) nofun) hc.runs hc.large

/-- The header of one block is written, without giving it the flag; other blocks
may leave the list. -/
theorem update (hc : Clean h e) (hi : Inv h held) (ha : a ∈ h.heapList)
    (hheader : h'.header = update h.header a hd) (hsub : ∀ b ∈ h'.heapList, b ∈ h.heapList)
    (hmem : ∀ x, ¬ (a ≤ x ∧ x < a + HEADER_SIZE) → h'.mem x = h.mem x) (hruns : h'.runs = h.runs)
    (hlarge : h'.large = h.large) (he : ∀ b, e' ≠ some b → e ≠ some b ∨ b = a ∧ hd.zeroed = false)
    (hzeroed : hd.zeroed = true → (h.header a).zeroed = true ∧ hd.size = h.size a)
    (hbusy : hd.allocated = true → e' ≠ some a → hd.zeroed = false) : Clean h' e' := by
  have hdata : ∀ b ∈ h'.heapList, ∀ x, InData h b x → h'.mem x = h.mem x :=
    fun b hb x hx => hmem x (hi.header_notData ha (hsub b hb) hx)
  refine of_at (fun b hb => ?_) (hruns ▸ hc.runs) fun b hb => ?_
  · by_cases hba : b = a
    · subst hba
      have hself : h'.header b = hd := by rw [hheader, update_self]
      -- If it has the flag, then it had it before, with the same data.
      have hseg : hd.zeroed = true → h'.segment b = h.segment b := by
        intro hz
        rw [heap_t.segment, heap_t.size, hself, (hzeroed hz).2]
        rfl
      rw [← hself] at hzeroed hbusy hseg
      refine ⟨fun hz x hx => ?_, fun hz hne => ?_, hbusy⟩
      · rw [InData, hseg hz] at hx
        rw [hdata b hb x hx]
        exact hc.zero b ha (hzeroed hz).1 x hx
      · rw [hruns, hseg hz]
        refine hc.tail b ha (hzeroed hz).1 ((he b hne).resolve_right fun hno => ?_)
        rw [hself, hno.2] at hz
        cases hz
    · refine (hc.block (hsub b hb)).same ?_ (fun _ => hdata b hb) (fun _ hr => hruns ▸ hr) fun hne => ?_
      · rw [hheader, update_of_ne hba]
      · exact (he b hne).resolve_right fun hno => hba hno.1
  · rw [hlarge] at hb
    have hba : b ≠ a := by
      rintro rfl
      exact hi.notMem_large ha (contains_self h b) hb
    rw [hheader, update_of_ne hba]
    exact hc.large b hb

theorem absorb {p q other : Nat} (hc : Clean h e) (hm : Mergeable h held p q other l₁ l₂) (hz : hd.zeroed = false) :
    Clean (absorb env h p q other hd) e := by
  have hsame := same_remove h other
  refine hc.update hm.inv (mem_of_eq_append hm.list) header_absorb_eq (fun b hb => hm.mem_list.2 (.inl hb)) ?_ hsame.runs
    hsame.large (fun b hb => .inl hb) ?_ fun _ _ => hz
  · intro x hx
    rw [← hsame.mem]
    exact mem_setHeader hx
  · intro h1
    rw [hz] at h1
    cases h1

theorem not_both (hc : Clean h e) {p q other : Nat} (hm : Mergeable h held p q other l₁ l₂) (hp : e ≠ some p)
    (hq : e ≠ some q) : ((h.header p).zeroed && (h.header q).zeroed) = false := by
  rw [Bool.and_eq_false_iff]
  by_contra hboth
  simp only [not_or, Bool.not_eq_false] at hboth
  have hpm : p ∈ h.heapList := by simp [hm.list]
  have hqm : q ∈ h.heapList := by simp [hm.list]
  obtain ⟨r, hr, hrp, hstop⟩ := hc.tail p hpm hboth.1 hp
  obtain ⟨s, hs, hsq, hstop'⟩ := hc.tail q hqm hboth.2 hq
  have hadj := hm.adjacent
  -- The last address of `p` is in both runs, so `q` would end where `p` does.
  have heq : r = s := by
    refine hc.runs r hr s hs (q - 1) ?_ ?_
    · rw [Segment.Contains, ← hstop, hadj]
      have := stop_segment h p
      simp only [HEADER_SIZE] at this
      omega
    · rw [Segment.Contains, ← hstop']
      have := stop_segment h q
      simp only [HEADER_SIZE] at this
      omega
  rw [heq, ← hstop', stop_segment h q] at hstop
  rw [hstop] at hadj
  simp only [HEADER_SIZE] at hadj
  omega

end Clean

/-! ## The property that is carried along -/

/-- The block that is handed out is allocated. -/
structure Zeroed (e : Option Nat) (h : heap_t) : Prop where
  clean : Clean h e
  allocated : ∀ b, e = some b → (h.header b).allocated = true

/-- The block that is not split yet is the end of a run, if it has the flag. -/
structure Unsplit (a : Nat) (h : heap_t) : Prop where
  clean : Clean h (some a)
  tail : (h.header a).zeroed = true → ∃ r ∈ h.runs, r.1 ≤ a ∧ (h.segment a).stop = r.stop

theorem zeroed_absorb {p q other : Nat} (hz : Zeroed e h) (hm : Mergeable h held p q other l₁ l₂)
    (hp : (h.header p).allocated = false) (hq : (h.header q).allocated = false)
    (hzero : hd.zeroed = ((h.header p).zeroed && (h.header q).zeroed)) : Zeroed e (absorb env h p q other hd) := by
  have hne : ∀ b, (h.header b).allocated = false → e ≠ some b := by
    intro b hb he
    rw [hz.allocated b he] at hb
    cases hb
  rw [hz.clean.not_both hm (hne p hp) (hne q hq)] at hzero
  refine ⟨hz.clean.absorb hm hzero, fun b hb => ?_⟩
  have hbp : b ≠ p := by
    rintro rfl
    exact hne b hp hb
  rw [header_absorb b hbp]
  exact hz.allocated b hb

theorem zeroed_cut (hi : Inv h (some a)) (hc : CanCut h a n) (hu : Unsplit a h) :
    Zeroed (some a) (cutHeap env h a n) := by
  obtain ⟨l₁, l₂, hl⟩ := append_of_mem hc.mem
  have hlist := heapList_cut env hi hl (n := n)
  have hself := header_cut_self env (h := h) (a := a) (n := n)
  have hrest := header_cut_rest env (h := h) (a := a) (n := n)
  have hroom := hc.room
  have hrnot := hc.rest_notMem hi
  have hrlarge : a + (HEADER_SIZE + n) ∉ h.large := hi.notMem_large hc.mem hc.inside
  have halarge : a ∉ h.large := hi.notMem_large hc.mem (contains_self h a)
  have hother : ∀ b ∈ h.heapList, b ≠ a → (cutHeap env h a n).header b = h.header b :=
    fun b hb hba => header_cut_of_ne env hba fun he => hrnot (he ▸ hb)
  have hmem : ∀ b ∈ (cutHeap env h a n).heapList, b = a ∨ b = a + (HEADER_SIZE + n) ∨ b ∈ h.heapList ∧ b ≠ a := by
    intro b hb
    by_cases hba : b = a
    · exact .inl hba
    · rw [hlist] at hb
      rw [hl]
      simp only [mem_append, mem_cons] at hb ⊢
      tauto
  have hstopa : ((cutHeap env h a n).segment a).stop = a + (HEADER_SIZE + n) := by
    rw [stop_segment, heap_t.size, hself, Nat.add_assoc]
  have hstopr : ((cutHeap env h a n).segment (a + (HEADER_SIZE + n))).stop = (h.segment a).stop := by
    rw [stop_segment, stop_segment, heap_t.size, hrest]
    simp only [HEADER_SIZE, HEAP_ALIGNMENT] at hroom ⊢
    omega
  -- Only the two headers are written.
  have hbytes : ∀ x, ¬ (a ≤ x ∧ x < a + HEADER_SIZE) →
      ¬ (a + (HEADER_SIZE + n) ≤ x ∧ x < a + (HEADER_SIZE + n) + HEADER_SIZE) →
      (cutHeap env h a n).mem x = h.mem x := by
    intro x hx hx'
    exact (mem_setHeader hx).trans (mem_setHeader hx')
  refine ⟨.of_at (fun b hb => ?_) hu.clean.runs fun b hb => ?_, fun b hb => ?_⟩
  · rcases hmem b hb with rfl | rfl | ⟨hb', hba⟩
    · refine ⟨fun hz x hx => ?_, fun _ hne => absurd rfl hne, fun _ hne => absurd rfl hne⟩
      rw [hself] at hz
      rw [InData, hstopa] at hx
      have hin : InData h b x := ⟨hx.1, hx.2.trans hc.inside.2⟩
      rw [hbytes x (by omega) (by omega)]
      exact hu.clean.zero b hc.mem hz x hin
    · refine ⟨fun hz x hx => ?_, fun hz _ => ?_, fun hall => ?_⟩
      · rw [hrest] at hz
        rw [InData, hstopr] at hx
        have hin : InData h a x := ⟨by simp only [HEADER_SIZE] at hx ⊢; omega, hx.2⟩
        rw [hbytes x (by simp only [HEADER_SIZE] at hx ⊢; omega) (by omega)]
        exact hu.clean.zero a hc.mem hz x hin
      · rw [hrest] at hz
        obtain ⟨r, hr, hra, hstop⟩ := hu.tail hz
        refine ⟨r, hr, ?_, hstopr.trans hstop⟩
        simp only [HEADER_SIZE]
        omega
      · rw [hrest] at hall
        cases hall
    · refine (hu.clean.block hb').same (hother b hb' hba) (fun _ x hx => ?_) (fun _ hr => hr) id
      have hout : ¬ (h.segment a).Contains x := fun hxa => hba (hi.eq_of_contains hb' hc.mem hx.contains hxa)
      refine hbytes x (fun hh => hout (contains_header hh)) fun hh => hout ?_
      rw [Segment.Contains, stop_segment]
      simp only [heap_t.segment, HEADER_SIZE, HEAP_ALIGNMENT] at hh hroom ⊢
      omega
  · have hba : b ≠ a := fun he => halarge (he ▸ hb)
    have hbr : b ≠ a + (HEADER_SIZE + n) := fun he => hrlarge (he ▸ hb)
    rw [header_cut_of_ne env hba hbr]
    exact hu.clean.large b hb
  · rw [← Option.some.inj hb, hself]
    exact hc.allocated

theorem unsplit_new (hz : Zeroed none h) (hi : Inv h none) {len : Nat} (hfresh : Fresh h (a, len))
    (hlen : HEADER_SIZE ≤ len) (hp : Placed h a l l₁ l₂) : Unsplit a (newHeap env h a len l) := by
  have hanot := hfresh.notMem hi
  obtain ⟨-, hpos, -, hruns, hlarge⟩ := hfresh
  have hheader : (newHeap env h a len l).header = update h.header a
      { allocated := false, mapped := false, zeroed := true, size := len - HEADER_SIZE } := rfl
  have hmem : ∀ b ∈ (newHeap env h a len l).heapList, b = a ∨ b ∈ h.heapList := by
    intro b hb
    have hb' : b ∈ l := hb
    rw [hp.new] at hb'
    rw [hp.old]
    simp only [mem_append, mem_cons] at hb' ⊢
    tauto
  have hstopa : ((newHeap env h a len l).segment a).stop = a + len := by
    rw [stop_segment, heap_t.size, hheader, update_self, Nat.add_assoc, Nat.add_sub_of_le hlen]
  refine ⟨.of_at (fun b hb => ?_) ?_ ?_, fun _ => ⟨(a, len), mem_cons_self, le_rfl, hstopa⟩⟩
  · rcases hmem b hb with rfl | hb'
    · refine ⟨fun _ x hx => ?_, fun _ hne => absurd rfl hne, fun _ hne => absurd rfl hne⟩
      rw [InData, hstopa] at hx
      have hout : ¬ (b ≤ x ∧ x < b + HEADER_SIZE) := by omega
      exact (mem_setHeader hout).trans (if_pos ⟨by omega, hx.2⟩)
    · refine (hz.clean.block hb').same ?_ (fun _ x hx => ?_) (fun _ hr => mem_cons_of_mem _ hr) (by rintro _ ⟨⟩)
      · have hba : b ≠ a := fun he => hanot (he ▸ hb')
        rw [hheader, update_of_ne hba]
      · -- The new run and the blocks have no address in common.
        obtain ⟨r, hr, hrx⟩ := hi.mem_run hb' hx.contains
        have hout : ¬ (a ≤ x ∧ x < a + len) := fun hax => (hruns r hr).not_both hax hrx
        have hout' : ¬ (a ≤ x ∧ x < a + HEADER_SIZE) := fun hax => hout ⟨hax.1, by omega⟩
        exact (mem_setHeader hout').trans (if_neg hout)
  · intro r hr s hs x hrx hsx
    rcases mem_cons.1 hr with rfl | hr
    · rcases mem_cons.1 hs with rfl | hs
      · rfl
      · exact ((hruns s hs).not_both hrx hsx).elim
    · rcases mem_cons.1 hs with rfl | hs
      · exact ((hruns r hr).not_both hsx hrx).elim
      · exact hz.clean.runs r hr s hs x hrx hsx
  · intro b hb
    have hba : b ≠ a := by
      rintro rfl
      exact (hlarge b hb).not_both ⟨le_rfl, Nat.lt_add_of_pos_right hpos⟩ (contains_self h b)
    rw [hheader, update_of_ne hba]
    exact hz.clean.large b hb

theorem carried_zeroed : Carried env Zeroed Unsplit where
  kept e :=
    { add := fun h b hz => by
        have hsame := same_add h b
        exact ⟨hz.clean.same hsame, by rw [hsame.header]; exact hz.allocated⟩
      absorb := fun h held p q other l₁ l₂ hd hm hp hq _ hzero hz => zeroed_absorb hz hm hp hq hzero }
  clear e h a hi ha hne hz := by
    refine ⟨hz.clean.update hi ha rfl (fun _ hb => hb) (fun x hx => mem_setHeader hx) rfl rfl (fun b hb => .inl hb)
      (fun h1 => ⟨h1, rfl⟩) nofun, fun b hb => ?_⟩
    have hba : b ≠ a := by
      rintro rfl
      exact hne hb
    have hsame : (h.setHeader env a { h.header a with allocated := false }).header b = h.header b :=
      update_of_ne hba _ _
    rw [hsame]
    exact hz.allocated b hb
  pop h i l b hz hidle := by
    have hc := hz.clean.same (same_shrunk h i l)
    refine ⟨hc.weaken, fun hzb => ?_⟩
    obtain ⟨r, hr, hrb, hstop⟩ := hc.tail b hidle.1 hzb nofun
    exact ⟨r, hr, hrb.le, hstop⟩
  new h a len l l₁ l₂ hz hi hfresh hlen hp := unsplit_new hz hi hfresh hlen hp
  take h b hi hb hu := by
    have hheader : (h.setHeader env b { h.header b with allocated := true }).header b =
        { h.header b with allocated := true } := update_self ..
    refine ⟨hu.clean.update hi hb rfl (fun _ hc => hc) (fun x hx => mem_setHeader hx) rfl rfl (fun c hc => .inl hc)
      (fun h1 => ⟨h1, rfl⟩) (fun _ hne => absurd rfl hne), fun hzb => ?_⟩
    rw [hheader] at hzb
    rw [stop_segment, heap_t.size, hheader]
    obtain ⟨r, hr, hra, hstop⟩ := hu.tail hzb
    exact ⟨r, hr, hra, (stop_segment h b).symm.trans hstop⟩
  ready h a hall hu := ⟨hu.clean, fun b hb => Option.some.inj hb ▸ hall⟩
  cut h a n hi hc hu := zeroed_cut hi hc hu

end Patchwork.Heap
