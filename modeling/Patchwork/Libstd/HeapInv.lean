import Patchwork.Libstd.HeapBins
/-!
# The invariant of the heap

Between two operations, the blocks on the list tile the runs of pages that were
mapped for it, and the free lists have the free ones. Within an operation there is
one block that is neither free nor allocated yet: the block that is being freed,
or taken, or that has just been mapped. `Inv h held` leaves it out of what is said
of the free blocks. The lemmas here are the ways in which the operations change
the heap: a block is held and let go, two blocks become one, one becomes two, a
new one is put on the list.
-/

namespace Patchwork.Heap

open Option List Function Lib

variable {env : Env} {h h' : heap_t} {a b : Nat} {held : Option Nat} {l₁ l₂ : List Nat}

namespace heap_t

/-- The memory of the blocks on the list. -/
def segments (h : heap_t) : List Segment := h.heapList.map h.segment

end heap_t

/-- The block is on the list, free, and not held. -/
def Idle (h : heap_t) (held : Option Nat) (b : Nat) : Prop :=
  b ∈ h.heapList ∧ (h.header b).allocated = false ∧ held ≠ some b

structure Inv (h : heap_t) (held : Option Nat) : Prop where
  apart : Apart h.segments
  tile : ∀ x, Covers h.segments x ↔ Covers h.runs x
  sizes : ∀ b ∈ h.heapList, 0 < h.size b ∧ h.size b % HEAP_ALIGNMENT = 0
  small : ∀ b ∈ h.heapList, held ≠ some b → h.size b ≤ HEAP_LARGE_ALLOC_THRESHOLD
  unmapped : ∀ b ∈ h.heapList, (h.header b).mapped = false
  bins : Bins h (Idle h held)
  coalesced : ∀ a b, Idle h held a → Idle h held b → (h.segment a).stop = b →
    HEAP_LARGE_ALLOC_THRESHOLD < h.size a + HEADER_SIZE + h.size b
  pages : ∀ r ∈ h.runs, r.1 % PAGE_SIZE = 0 ∧ r.2 % PAGE_SIZE = 0 ∧ 0 < r.2
  mapped : ∀ b ∈ h.large, (h.header b).mapped = true
  outside : ∀ b ∈ h.large, ∀ r ∈ h.runs, (h.segment b).Disjoint r

theorem stop_segment (h : heap_t) (a : Nat) : (h.segment a).stop = a + HEADER_SIZE + h.size a := by
  rw [Segment.stop, heap_t.segment, Nat.add_assoc]

theorem contains_self (h : heap_t) (a : Nat) : (h.segment a).Contains a := by
  simp only [Segment.Contains, Segment.stop, heap_t.segment, HEADER_SIZE]
  omega

theorem segment_pos (h : heap_t) : ∀ s ∈ h.segments, 0 < s.2 := by
  intro s hs
  obtain ⟨a, -, rfl⟩ := mem_map.1 hs
  exact Nat.add_pos_left (by decide) _

theorem segments_append (hl : h.heapList = l₁ ++ a :: l₂) :
    h.segments = l₁.map h.segment ++ h.segment a :: l₂.map h.segment := by
  rw [heap_t.segments, hl, map_append, map_cons]

namespace Inv

section
variable (hi : Inv h held)
include hi

theorem nodup : h.heapList.Nodup := by
  refine List.Pairwise.imp_of_mem ?_ (pairwise_map.1 hi.apart)
  intro a b _ _ hab heq
  rw [stop_segment] at hab
  simp only [heap_t.segment, heq, HEADER_SIZE] at hab
  omega

theorem notMem (hl : h.heapList = l₁ ++ a :: l₂) : a ∉ l₁ ∧ a ∉ l₂ := by
  have hn := hi.nodup
  rw [hl, nodup_append, nodup_cons] at hn
  exact ⟨fun ha => hn.2.2 a ha a mem_cons_self rfl, hn.2.1.1⟩

theorem notMem_second {x y : Nat} (hl : h.heapList = l₁ ++ x :: y :: l₂) : y ∉ l₁ ∧ y ∉ l₂ := by
  have hsplit : h.heapList = (l₁ ++ [x]) ++ y :: l₂ := by rw [hl, append_assoc, singleton_append]
  obtain ⟨h1, h2⟩ := hi.notMem hsplit
  exact ⟨fun hy => h1 (mem_append_left _ hy), h2⟩

theorem next_eq (hl : h.heapList = l₁ ++ a :: l₂) (hb : b ∈ h.heapList)
    (hadj : (h.segment a).stop = b) : l₂.head? = some b := by
  have hapart := hi.apart
  have hpos := segment_pos h
  have hmem : h.segment b ∈ h.segments := mem_map.2 ⟨b, hb, rfl⟩
  rw [segments_append hl] at hapart hpos hmem
  have hnext := hapart.next_of_adjacent hpos hmem hadj
  rw [head?_map, map_eq_some_iff] at hnext
  obtain ⟨c, hc, hseg⟩ := hnext
  rw [hc, show c = b from congrArg Prod.fst hseg]

theorem prev_eq (hl : h.heapList = l₁ ++ a :: l₂) (hb : b ∈ h.heapList)
    (hadj : (h.segment b).stop = a) : l₁.getLast? = some b := by
  have hapart := hi.apart
  have hpos := segment_pos h
  have hmem : h.segment b ∈ h.segments := mem_map.2 ⟨b, hb, rfl⟩
  rw [segments_append hl] at hapart hpos hmem
  have hprev := hapart.prev_of_adjacent hpos hmem hadj
  rw [getLast?_map, map_eq_some_iff] at hprev
  obtain ⟨c, hc, hseg⟩ := hprev
  rw [hc, show c = b from congrArg Prod.fst hseg]

theorem first_page (hl : h.heapList = a :: l₂) : a % PAGE_SIZE = 0 := by
  have hseg : h.segments = h.segment a :: l₂.map h.segment := by rw [heap_t.segments, hl, map_cons]
  obtain ⟨r, hr, hra⟩ := Apart.first_start (fun r hr => (hi.pages r hr).2.2) (hseg ▸ hi.apart)
    (hseg ▸ segment_pos h) (hseg ▸ hi.tile)
  have hstart : r.1 = a := hra
  rw [← hstart]
  exact (hi.pages r hr).1

theorem last_page (hl : h.heapList = l₁ ++ [a]) : (h.segment a).stop % PAGE_SIZE = 0 := by
  have hseg : h.segments = l₁.map h.segment ++ [h.segment a] := by rw [heap_t.segments, hl, map_append]; rfl
  obtain ⟨r, hr, hra⟩ := Apart.last_stop (fun r hr => (hi.pages r hr).2.2) (hseg ▸ hi.apart)
    (hseg ▸ segment_pos h) (hseg ▸ hi.tile)
  obtain ⟨h1, h2, -⟩ := hi.pages r hr
  rw [← hra, Segment.stop, Nat.add_mod, h1, h2]
  rfl

theorem mem_run (ha : a ∈ h.heapList) {x : Nat} (hx : (h.segment a).Contains x) :
    ∃ r ∈ h.runs, r.Contains x := (hi.tile x).1 ⟨h.segment a, mem_map.2 ⟨a, ha, rfl⟩, hx⟩

theorem notMem_large (ha : a ∈ h.heapList) {x : Nat} (hx : (h.segment a).Contains x) : x ∉ h.large := by
  intro hl
  obtain ⟨r, hr, hc⟩ := hi.mem_run ha hx
  exact (hi.outside x hl r hr).not_both (contains_self h x) hc

theorem eq_of_contains (ha : a ∈ h.heapList) (hb : b ∈ h.heapList) {x : Nat}
    (hxa : (h.segment a).Contains x) (hxb : (h.segment b).Contains x) : a = b := by
  rcases hi.apart.eq_or_disjoint (mem_map.2 ⟨a, ha, rfl⟩) (mem_map.2 ⟨b, hb, rfl⟩) with heq | hd
  · exact congrArg Prod.fst heq
  · exact (hd.not_both hxa hxb).elim

end

/-! ## Holding a block and letting it go -/

theorem idle_hold (ha : (h.header a).allocated = true) (b : Nat) : Idle h none b ↔ Idle h (some a) b := by
  refine and_congr_right fun _ => and_congr_right fun hb => ⟨fun _ hab => ?_, fun _ => nofun⟩
  rw [some.inj hab, hb] at ha
  cases ha

theorem hold (hi : Inv h none) (ha : (h.header a).allocated = true) : Inv h (some a) :=
  { hi with
    small := fun b hb _ => hi.small b hb nofun
    bins := hi.bins.congr (idle_hold ha)
    coalesced := fun b c hb hc => hi.coalesced b c ((idle_hold ha b).2 hb) ((idle_hold ha c).2 hc) }

theorem letGo (hi : Inv h (some a)) (ha : (h.header a).allocated = true)
    (hsmall : h.size a ≤ HEAP_LARGE_ALLOC_THRESHOLD) : Inv h none := by
  refine
    { hi with
      small := fun b hb _ => ?_
      bins := hi.bins.congr fun b => (idle_hold ha b).symm
      coalesced := fun b c hb hc => hi.coalesced b c ((idle_hold ha b).1 hb) ((idle_hold ha c).1 hc) }
  by_cases hab : a = b
  · exact hab ▸ hsmall
  · exact hi.small b hb fun he => hab (some.inj he)

/-- No free block next to the held one could be merged with it. -/
structure Settled (h : heap_t) (a : Nat) : Prop where
  next : ∀ b, Idle h (some a) b → (h.segment a).stop = b →
    HEAP_LARGE_ALLOC_THRESHOLD < h.size a + HEADER_SIZE + h.size b
  prev : ∀ b, Idle h (some a) b → (h.segment b).stop = a →
    HEAP_LARGE_ALLOC_THRESHOLD < h.size b + HEADER_SIZE + h.size a

theorem add (hi : Inv h (some a)) (ha : a ∈ h.heapList) (hfree : (h.header a).allocated = false)
    (hsmall : h.size a ≤ HEAP_LARGE_ALLOC_THRESHOLD) (hs : Settled h a) : Inv (heap_add_to_free_list h a) none := by
  have hsame := same_add h a
  have hsize := hsame.size
  have hseg : (heap_add_to_free_list h a).segment = h.segment := by
    funext b
    rw [heap_t.segment, hsize]
    rfl
  have hsegs : (heap_add_to_free_list h a).segments = h.segments := by
    rw [heap_t.segments, hseg, hsame.heapList]
    rfl
  have hidle : ∀ b, Idle h (some a) b ∨ b = a ↔ Idle (heap_add_to_free_list h a) none b := by
    intro b
    rw [Idle, Idle, hsame.heapList, hsame.header]
    constructor
    · rintro (⟨h1, h2, -⟩ | rfl)
      · exact ⟨h1, h2, nofun⟩
      · exact ⟨ha, hfree, nofun⟩
    · rintro ⟨h1, h2, -⟩
      by_cases hab : a = b
      · exact .inr hab.symm
      · exact .inl ⟨h1, h2, fun he => hab (some.inj he)⟩
  refine
    { apart := hsegs ▸ hi.apart
      tile := by rw [hsegs, hsame.runs]; exact hi.tile
      sizes := by rw [hsame.heapList, hsize]; exact hi.sizes
      small := fun b hb _ => ?_
      unmapped := by rw [hsame.heapList, hsame.header]; exact hi.unmapped
      bins := (hi.bins.add (fun hidle => hidle.2.2 rfl) hsmall).congr hidle
      coalesced := fun b c hb hc hadj => ?_
      pages := hsame.runs ▸ hi.pages
      mapped := by rw [hsame.large, hsame.header]; exact hi.mapped
      outside := by rw [hsame.large, hsame.runs, hseg]; exact hi.outside }
  · rw [hsame.heapList] at hb
    rw [hsize]
    by_cases hab : a = b
    · exact hab ▸ hsmall
    · exact hi.small b hb fun he => hab (some.inj he)
  · rw [hseg] at hadj
    rw [hsize]
    rcases (hidle b).2 hb with hb | rfl
    · rcases (hidle c).2 hc with hc | rfl
      · exact hi.coalesced b c hb hc hadj
      · exact hs.prev b hb hadj
    · rcases (hidle c).2 hc with hc | rfl
      · exact hs.next c hc hadj
      · rw [stop_segment, HEADER_SIZE] at hadj
        omega

/-! ## Changing the blocks -/

/-- The block is as it was, or has what the invariant asks of a block. -/
def KeptOrSound (h h' : heap_t) (held held' : Option Nat) (b : Nat) : Prop :=
  (b ∈ h.heapList ∧ (held' ≠ some b → held ≠ some b) ∧ h'.header b = h.header b) ∨
  (0 < h'.size b ∧ h'.size b % HEAP_ALIGNMENT = 0 ∧ (h'.header b).mapped = false ∧
    (held' ≠ some b → h'.size b ≤ HEAP_LARGE_ALLOC_THRESHOLD))

theorem rebuild {held' : Option Nat} (hi : Inv h held) (hapart : Apart h'.segments)
    (htile : ∀ x, Covers h'.segments x ↔ Covers h'.runs x) (hbins : Bins h' (Idle h' held'))
    (hidle : ∀ b, Idle h' held' b → Idle h held b ∧ h'.size b = h.size b)
    (hblocks : ∀ b ∈ h'.heapList, KeptOrSound h h' held held' b)
    (hpages : ∀ r ∈ h'.runs, r.1 % PAGE_SIZE = 0 ∧ r.2 % PAGE_SIZE = 0 ∧ 0 < r.2)
    (hmapped : ∀ b ∈ h'.large, (h'.header b).mapped = true)
    (houtside : ∀ b ∈ h'.large, ∀ r ∈ h'.runs, (h'.segment b).Disjoint r) : Inv h' held' where
  apart := hapart
  tile := htile
  sizes b hb := by
    rcases hblocks b hb with ⟨hb, -, hsame⟩ | ⟨hpos, hmul, -, -⟩
    · rw [heap_t.size, hsame]
      exact hi.sizes b hb
    · exact ⟨hpos, hmul⟩
  small b hb hne := by
    rcases hblocks b hb with ⟨hb, hheld, hsame⟩ | ⟨-, -, -, hsmall⟩
    · rw [heap_t.size, hsame]
      exact hi.small b hb (hheld hne)
    · exact hsmall hne
  unmapped b hb := by
    rcases hblocks b hb with ⟨hb, -, hsame⟩ | ⟨-, -, hmap, -⟩
    · rw [hsame]
      exact hi.unmapped b hb
    · exact hmap
  bins := hbins
  coalesced b c hb hc hadj := by
    obtain ⟨hb, hsb⟩ := hidle b hb
    obtain ⟨hc, hsc⟩ := hidle c hc
    rw [stop_segment, hsb, ← stop_segment] at hadj
    rw [hsb, hsc]
    exact hi.coalesced b c hb hc hadj
  pages := hpages
  mapped := hmapped
  outside := houtside

/-- The blocks of the list are changed within the same memory. -/
theorem reshape (hi : Inv h held) {held' : Option Nat} (hruns : h'.runs = h.runs) (hlarge : h'.large = h.large)
    (hapart : Apart h'.segments) (hcovers : ∀ x, Covers h'.segments x ↔ Covers h.segments x)
    (hbins : Bins h' (Idle h' held'))
    (hidle : ∀ b, Idle h' held' b → Idle h held b ∧ h'.size b = h.size b)
    (hblocks : ∀ b ∈ h'.heapList, KeptOrSound h h' held held' b)
    (hfar : ∀ b ∈ h.large, h'.header b = h.header b) : Inv h' held' := by
  refine hi.rebuild hapart (fun x => by rw [hcovers, hruns, hi.tile]) hbins hidle hblocks (hruns ▸ hi.pages) ?_ ?_
  · intro b hb
    rw [hlarge] at hb
    rw [hfar b hb]
    exact hi.mapped b hb
  · intro b hb
    rw [hlarge] at hb
    rw [hruns, heap_t.segment, heap_t.size, hfar b hb]
    exact hi.outside b hb

theorem take (hi : Inv h none) {i : Nat} {l : List Nat}
    (hbins : Bins (h.shrunk i l) fun x => Idle h none x ∧ x ≠ b) : Inv (h.shrunk i l) (some b) := by
  have hidle : ∀ x, Idle h none x ∧ x ≠ b ↔ Idle (h.shrunk i l) (some b) x := by
    intro x
    simp only [Idle, heapList_shrunk, header_shrunk]
    constructor
    · rintro ⟨⟨h1, h2, -⟩, hne⟩
      exact ⟨h1, h2, fun he => hne (some.inj he).symm⟩
    · rintro ⟨h1, h2, hne⟩
      exact ⟨⟨h1, h2, nofun⟩, fun he => hne (congrArg some he.symm)⟩
  exact hi.reshape rfl rfl hi.apart (fun _ => Iff.rfl) (hbins.congr hidle) (fun c hc => ⟨((hidle c).2 hc).1, rfl⟩)
    (fun c hc => .inl ⟨hc, fun _ => nofun, rfl⟩) fun _ _ => rfl

/-- The blocks of the list stay as they are; the large ones may change. -/
theorem frame (hi : Inv h held) (hlist : h'.heapList = h.heapList) (hfree : h'.freeLists = h.freeLists)
    (hbitmap : h'.freeBitmap = h.freeBitmap) (hruns : h'.runs = h.runs)
    (hheader : ∀ b ∈ h.heapList, h'.header b = h.header b) (hmapped : ∀ b ∈ h'.large, (h'.header b).mapped = true)
    (houtside : ∀ b ∈ h'.large, ∀ r ∈ h.runs, (h'.segment b).Disjoint r) : Inv h' held := by
  have hsize : ∀ b ∈ h.heapList, h'.size b = h.size b := by
    intro b hb
    rw [heap_t.size, hheader b hb]
    rfl
  have hsegs : h'.segments = h.segments := by
    rw [heap_t.segments, hlist]
    apply map_congr_left
    intro b hb
    rw [heap_t.segment, hsize b hb]
    rfl
  have hidle : ∀ b, Idle h held b ↔ Idle h' held b := by
    intro b
    rw [Idle, Idle, hlist]
    refine and_congr_right fun hb => ?_
    rw [hheader b hb]
  have hbins : Bins h' (Idle h held) := hi.bins.frame hfree hbitmap fun b hb => hsize b hb.1
  refine hi.rebuild (hsegs ▸ hi.apart) (fun x => by rw [hsegs, hruns, hi.tile]) (hbins.congr hidle) ?_ ?_
    (hruns ▸ hi.pages) hmapped (hruns ▸ houtside)
  · intro b hb
    have hb' := (hidle b).2 hb
    exact ⟨hb', hsize b hb'.1⟩
  · intro b hb
    rw [hlist] at hb
    exact .inl ⟨hb, id, hheader b hb⟩

section Update
variable {hd : heap_header_t}

theorem size_of_ne (hh : h'.header = update h.header a hd) (hne : b ≠ a) : h'.size b = h.size b := by
  rw [heap_t.size, hh, update_of_ne hne]
  rfl

theorem segment_of_ne (hh : h'.header = update h.header a hd) (hne : b ≠ a) : h'.segment b = h.segment b := by
  rw [heap_t.segment, size_of_ne hh hne]
  rfl

theorem map_segment (hh : h'.header = update h.header a hd) (ha : a ∉ l₁) : l₁.map h'.segment = l₁.map h.segment := by
  apply map_congr_left
  intro b hb
  apply segment_of_ne hh
  rintro rfl
  exact ha hb

theorem setFlags (hi : Inv h (some a)) (ha : a ∈ h.heapList) (hsize : hd.size = h.size a)
    (hmap : hd.mapped = false) : Inv (h.setHeader env a hd) (some a) := by
  have hheader : (h.setHeader env a hd).header = update h.header a hd := rfl
  have hsizes : (h.setHeader env a hd).size = h.size := by
    funext b
    by_cases hb : b = a
    · rw [hb, heap_t.size, hheader, update_self, hsize]
    · exact size_of_ne hheader hb
  have hsegs : (h.setHeader env a hd).segments = h.segments := by
    apply map_congr_left
    intro b _
    rw [heap_t.segment, hsizes]
    rfl
  have hidle : ∀ b, Idle h (some a) b ↔ Idle (h.setHeader env a hd) (some a) b := by
    intro b
    refine and_congr_right fun _ => ?_
    by_cases hb : b = a
    · simp [hb]
    · rw [hheader, update_of_ne hb]
  have hbins : Bins (h.setHeader env a hd) (Idle h (some a)) := hi.bins.frame rfl rfl fun b _ => by rw [hsizes]
  refine hi.reshape rfl rfl (hsegs ▸ hi.apart) (fun x => by rw [hsegs]) (hbins.congr hidle) ?_ ?_ ?_
  · exact fun b hb => ⟨(hidle b).2 hb, by rw [hsizes]⟩
  · intro b hb
    by_cases hab : b = a
    · right
      rw [hsizes, hheader, hab, update_self]
      exact ⟨(hi.sizes a ha).1, (hi.sizes a ha).2, hmap, fun hne => absurd rfl hne⟩
    · left
      rw [hheader, update_of_ne hab]
      exact ⟨hb, fun _ he => hab (some.inj he).symm, rfl⟩
  · intro b hb
    rw [hheader, update_of_ne]
    rintro rfl
    exact hi.notMem_large ha (contains_self h b) hb

theorem idle_merged (hi : Inv h held) {x y other : Nat} (hl : h.heapList = l₁ ++ x :: y :: l₂)
    (hheld : held = some x ∧ other = y ∨ held = some y ∧ other = x)
    (hheader : h'.header = update h.header x hd) (hlist : h'.heapList = l₁ ++ x :: l₂) (b : Nat) :
    Idle h held b ∧ b ≠ other ↔ Idle h' (some x) b := by
  have hny := hi.notMem_second hl
  simp only [Idle, hlist, hl, mem_append, mem_cons]
  have hbx : b ≠ x → h'.header b = h.header b := fun hne => by rw [hheader, update_of_ne hne]
  constructor
  · rintro ⟨⟨hmem, hall, hne⟩, hbo⟩
    have hnx' : b ≠ x := by
      rintro rfl
      rcases hheld with ⟨rfl, -⟩ | ⟨-, rfl⟩
      · exact hne rfl
      · exact hbo rfl
    have hny' : b ≠ y := by
      rintro rfl
      rcases hheld with ⟨-, rfl⟩ | ⟨rfl, -⟩
      · exact hbo rfl
      · exact hne rfl
    refine ⟨?_, by rw [hbx hnx']; exact hall, fun he => hnx' (some.inj he).symm⟩
    tauto
  · rintro ⟨hmem, hall, hne⟩
    have hnx' : b ≠ x := fun he => hne (congrArg some he.symm)
    have hny' : b ≠ y := by
      rintro rfl
      rcases hmem with hb | hb | hb
      · exact hny.1 hb
      · exact hnx' hb
      · exact hny.2 hb
    rw [hbx hnx'] at hall
    refine ⟨⟨by tauto, hall, ?_⟩, ?_⟩
    · rcases hheld with ⟨rfl, -⟩ | ⟨rfl, -⟩
      · exact hne
      · exact fun he => hny' (some.inj he).symm
    · rcases hheld with ⟨-, rfl⟩ | ⟨-, rfl⟩
      · exact hny'
      · exact hnx'

/-- Two adjacent blocks, of which one is held and the other one is free, become
one, which is held. -/
theorem merge (hi : Inv h held) {x y other : Nat} (hl : h.heapList = l₁ ++ x :: y :: l₂)
    (hadj : (h.segment x).stop = y) (hheld : held = some x ∧ other = y ∨ held = some y ∧ other = x)
    (hother : Idle h held other) (hsize : hd.size = h.size x + HEADER_SIZE + h.size y) (hmap : hd.mapped = false)
    (hheader : h'.header = update h.header x hd) (hlist : h'.heapList = l₁ ++ x :: l₂)
    (hruns : h'.runs = h.runs) (hlarge : h'.large = h.large)
    (hfree : h'.freeLists = (heap_remove_from_free_list h other).freeLists)
    (hbitmap : h'.freeBitmap = (heap_remove_from_free_list h other).freeBitmap) : Inv h' (some x) := by
  have hx : x ∈ h.heapList := by simp [hl]
  have hy : y ∈ h.heapList := by simp [hl]
  have hnx := hi.notMem hl
  have hny := hi.notMem_second hl
  have hsizex : h'.size x = h.size x + HEADER_SIZE + h.size y := by
    rw [heap_t.size, hheader, update_self, hsize]
  have hsegy : h.segment y = (x + (HEADER_SIZE + h.size x), HEADER_SIZE + h.size y) := by
    rw [heap_t.segment, ← hadj]
    rfl
  have hold : h.segments = l₁.map h.segment ++ (x, HEADER_SIZE + h.size x) ::
      (x + (HEADER_SIZE + h.size x), HEADER_SIZE + h.size y) :: l₂.map h.segment := by
    rw [segments_append hl, map_cons, hsegy]
    rfl
  have hnew : h'.segments = l₁.map h.segment ++
      (x, HEADER_SIZE + h.size x + (HEADER_SIZE + h.size y)) :: l₂.map h.segment := by
    rw [segments_append hlist, map_segment hheader hnx.1,
      map_segment hheader fun hx => hnx.2 (mem_cons_of_mem y hx), heap_t.segment, hsizex, Nat.add_assoc,
      Nat.add_assoc]
  have hidle := hi.idle_merged hl hheld hheader hlist
  have hnotx : ∀ b, Idle h held b ∧ b ≠ other → b ≠ x := by
    rintro b hb rfl
    exact ((hidle b).1 hb).2.2 rfl
  refine hi.reshape hruns hlarge ?_ ?_ ?_ ?_ ?_ ?_
  · rw [hnew, apart_cut, ← hold]
    exact hi.apart
  · intro c
    rw [hnew, covers_cut, ← hold]
  · refine ((hi.bins.remove hother).frame hfree hbitmap fun b hb => ?_).congr hidle
    rw [(same_remove h other).size]
    exact size_of_ne hheader (hnotx b hb)
  · intro b hb
    have hb' := (hidle b).2 hb
    exact ⟨hb'.1, size_of_ne hheader (hnotx b hb')⟩
  · intro b hb
    by_cases hbx : b = x
    · right
      obtain ⟨hpx, hmx⟩ := hi.sizes x hx
      obtain ⟨hpy, hmy⟩ := hi.sizes y hy
      rw [hbx, hsizex, hheader, update_self]
      refine ⟨by omega, ?_, hmap, fun hne => absurd rfl hne⟩
      simp only [HEAP_ALIGNMENT, HEADER_SIZE] at *
      omega
    · left
      rw [hlist] at hb
      have hby : b ≠ y := by
        rintro rfl
        rcases mem_append.1 hb with hb | hb
        · exact hny.1 hb
        · exact hny.2 ((mem_cons.1 hb).resolve_left hbx)
      refine ⟨?_, ?_, by rw [hheader, update_of_ne hbx]⟩
      · rw [hl]
        simp only [mem_append, mem_cons] at hb ⊢
        tauto
      · rcases hheld with ⟨rfl, -⟩ | ⟨rfl, -⟩
        · exact id
        · exact fun _ he => hby (some.inj he).symm
  · intro b hb
    rw [hheader, update_of_ne]
    rintro rfl
    exact hi.notMem_large hx (contains_self h b) hb

end Update

/-- A held block that is allocated is cut in two, and the second part is held. -/
theorem cut (hi : Inv h (some a)) (hl : h.heapList = l₁ ++ a :: l₂) (halloc : (h.header a).allocated = true)
    {n : Nat} {hd : heap_header_t} (hpos : 0 < n) (hmul : n % HEAP_ALIGNMENT = 0)
    (hn : n ≤ HEAP_LARGE_ALLOC_THRESHOLD) (hlt : n + HEADER_SIZE + HEAP_ALIGNMENT ≤ h.size a)
    (hsize : hd.size = h.size a - n - HEADER_SIZE) (hmap : hd.mapped = false)
    (hheader : h'.header = update (update h.header (a + (HEADER_SIZE + n)) hd) a
      { h.header a with size := n })
    (hlist : h'.heapList = l₁ ++ a :: (a + (HEADER_SIZE + n)) :: l₂) (hruns : h'.runs = h.runs)
    (hlarge : h'.large = h.large) (hfree : h'.freeLists = h.freeLists) (hbitmap : h'.freeBitmap = h.freeBitmap) :
    Inv h' (some (a + (HEADER_SIZE + n))) := by
  have ha : a ∈ h.heapList := by simp [hl]
  obtain ⟨hsa, hma⟩ := hi.sizes a ha
  generalize hr : a + (HEADER_SIZE + n) = r at hheader hlist ⊢
  have hra : r ≠ a := by simp only [HEADER_SIZE] at hr; omega
  -- The new header is inside the old block.
  have hcontains : (h.segment a).Contains r := by
    rw [Segment.Contains, stop_segment]
    simp only [heap_t.segment, HEADER_SIZE, HEAP_ALIGNMENT] at hr hlt ⊢
    omega
  have hrnot : r ∉ h.heapList := fun hmem => hra (hi.eq_of_contains hmem ha (contains_self h r) hcontains)
  have hother : ∀ b, b ≠ a → b ≠ r → h'.header b = h.header b := by
    intro b hba hbr
    rw [hheader, update_of_ne hba, update_of_ne hbr]
  have hheadera : h'.header a = { h.header a with size := n } := by rw [hheader, update_self]
  have hheaderr : h'.header r = hd := by rw [hheader, update_of_ne hra, update_self]
  have hmapseg : ∀ l : List Nat, a ∉ l → r ∉ l → l.map h'.segment = l.map h.segment := by
    intro l hal hrl
    apply map_congr_left
    intro b hb
    rw [heap_t.segment, heap_t.size, hother b (fun he => hal (he ▸ hb)) fun he => hrl (he ▸ hb)]
    rfl
  obtain ⟨hnot1, hnot2⟩ := hi.notMem hl
  have hr1 : r ∉ l₁ := fun hmem => hrnot (hl ▸ mem_append_left _ hmem)
  have hr2 : r ∉ l₂ := fun hmem => hrnot (hl ▸ mem_append_right _ (mem_cons_of_mem _ hmem))
  have hold : h.segments = l₁.map h.segment ++
      (a, HEADER_SIZE + n + (HEADER_SIZE + hd.size)) :: l₂.map h.segment := by
    rw [segments_append hl, heap_t.segment, hsize]
    simp only [HEADER_SIZE, HEAP_ALIGNMENT] at hlt ⊢
    rw [show 64 + n + (64 + (h.size a - n - 64)) = 64 + h.size a by omega]
  have hnew : h'.segments = l₁.map h.segment ++
      (a, HEADER_SIZE + n) :: (a + (HEADER_SIZE + n), HEADER_SIZE + hd.size) :: l₂.map h.segment := by
    rw [segments_append hlist, map_cons, hmapseg l₁ hnot1 hr1, hmapseg l₂ hnot2 hr2]
    simp only [heap_t.segment, heap_t.size, hheadera, hheaderr, hr]
  have hidle : ∀ b, Idle h (some a) b ↔ Idle h' (some r) b := by
    intro b
    simp only [Idle, hlist, hl, mem_append, mem_cons]
    by_cases hba : b = a
    · simp [hba, hheadera, halloc]
    · by_cases hbr : b = r
      · simp [hbr, hr1, hr2, hra]
      · rw [hother b hba hbr]
        simp [hba, hbr, Ne.symm hba, Ne.symm hbr]
  have hsame : ∀ b, Idle h (some a) b → h'.size b = h.size b := by
    intro b hb
    have hba : b ≠ a := fun he => hb.2.2 (congrArg some he.symm)
    have hbr : b ≠ r := fun he => hrnot (he ▸ hb.1)
    rw [heap_t.size, hother b hba hbr]
    rfl
  refine hi.reshape hruns hlarge ?_ ?_ ((hi.bins.frame hfree hbitmap hsame).congr hidle) ?_ ?_ ?_
  · rw [hnew, ← apart_cut, ← hold]
    exact hi.apart
  · intro x
    rw [hnew, ← covers_cut, ← hold]
  · exact fun b hb => ⟨(hidle b).2 hb, hsame b ((hidle b).2 hb)⟩
  · intro b hb
    by_cases hba : b = a
    · right
      simp only [hba, heap_t.size, hheadera]
      exact ⟨hpos, hmul, hi.unmapped a ha, fun _ => hn⟩
    · by_cases hbr : b = r
      · right
        rw [hbr, heap_t.size, hheaderr, hsize]
        simp only [HEAP_ALIGNMENT, HEADER_SIZE] at *
        exact ⟨by omega, by omega, hmap, fun hne => absurd rfl hne⟩
      · left
        refine ⟨?_, fun _ he => hba (some.inj he).symm, hother b hba hbr⟩
        rw [hlist] at hb
        rw [hl]
        simp only [mem_append, mem_cons] at hb ⊢
        tauto
  · intro b hb
    apply hother
    · rintro rfl
      exact hi.notMem_large ha (contains_self h b) hb
    · rintro rfl
      exact hi.notMem_large ha hcontains hb

/-- A block for a new run of pages is put on the list, and held. -/
theorem insert (hi : Inv h none) {len : Nat} {hd : heap_header_t} (hl : h.heapList = l₁ ++ l₂)
    (hfresh : Fresh h (a, len)) (hpages : len % PAGE_SIZE = 0) (hsize : hd.size = len - HEADER_SIZE)
    (hmap : hd.mapped = false) (h₁ : ∀ b ∈ l₁, b ≤ a) (h₂ : ∀ b ∈ l₂, a < b)
    (hheader : h'.header = update h.header a hd) (hlist : h'.heapList = l₁ ++ a :: l₂)
    (hruns : h'.runs = (a, len) :: h.runs) (hlarge : h'.large = h.large) (hfree : h'.freeLists = h.freeLists)
    (hbitmap : h'.freeBitmap = h.freeBitmap) : Inv h' (some a) := by
  obtain ⟨halign, hpos, -, hrunsApart, hlargeApart⟩ := hfresh
  have hlen : PAGE_SIZE ≤ len := Nat.le_of_dvd hpos (Nat.dvd_of_mod_eq_zero hpages)
  have hdisj : ∀ b ∈ h.heapList, (h.segment b).Disjoint (a, len) := by
    intro b hb
    refine Segment.disjoint_of_not_both (Nat.add_pos_left (by decide) _) hpos fun x hx hx' => ?_
    obtain ⟨r, hr, hrx⟩ := hi.mem_run hb hx
    exact (hrunsApart r hr).not_both hx' hrx
  have hanot : a ∉ h.heapList := fun hmem =>
    (hdisj a hmem).not_both (contains_self h a) ⟨le_rfl, Nat.lt_add_of_pos_right hpos⟩
  have hanotLarge : a ∉ h.large := fun hmem =>
    (hlargeApart a hmem).not_both ⟨le_rfl, Nat.lt_add_of_pos_right hpos⟩ (contains_self h a)
  have hsega : h'.segment a = (a, len) := by
    rw [heap_t.segment, heap_t.size, hheader, update_self, hsize]
    simp only [HEADER_SIZE, PAGE_SIZE] at hlen ⊢
    rw [show 64 + (len - 64) = len by omega]
  have hnew : h'.segments = l₁.map h.segment ++ (a, len) :: l₂.map h.segment := by
    rw [segments_append hlist, map_segment hheader fun hmem => hanot (hl ▸ mem_append_left _ hmem),
      map_segment hheader fun hmem => hanot (hl ▸ mem_append_right _ hmem), hsega]
  have hold : h.segments = l₁.map h.segment ++ l₂.map h.segment := by
    rw [heap_t.segments, hl, map_append]
  have hidle : ∀ b, Idle h none b ↔ Idle h' (some a) b := by
    intro b
    simp only [Idle, hlist, hl, mem_append, mem_cons]
    by_cases hba : b = a
    · subst hba
      rw [hl, mem_append] at hanot
      simp [hanot]
    · rw [hheader, update_of_ne hba]
      simp [hba, Ne.symm hba]
  have hold' : ∀ b, Idle h none b → h'.size b = h.size b := fun b hb => size_of_ne hheader (ne_of_mem_of_not_mem hb.1 hanot)
  refine hi.rebuild ?_ ?_ ((hi.bins.frame hfree hbitmap hold').congr hidle)
    (fun b hb => ⟨(hidle b).2 hb, hold' b ((hidle b).2 hb)⟩) ?_ ?_ ?_ ?_
  · rw [hnew]
    refine Apart.insert (hold ▸ hi.apart) ?_ ?_
    · intro t ht
      obtain ⟨b, hb, rfl⟩ := mem_map.1 ht
      have hd := hdisj b (hl ▸ mem_append_left _ hb)
      have hle := h₁ b hb
      simp only [Segment.Disjoint, Segment.stop, heap_t.segment] at hd ⊢
      omega
    · intro t ht
      obtain ⟨b, hb, rfl⟩ := mem_map.1 ht
      have hd := hdisj b (hl ▸ mem_append_right _ hb)
      have hlt := h₂ b hb
      simp only [Segment.Disjoint, Segment.stop, heap_t.segment] at hd ⊢
      omega
  · intro x
    have htile := hi.tile x
    rw [hold, covers_append] at htile
    rw [hnew, hruns, covers_append, covers_cons, covers_cons, ← htile]
    tauto
  · intro b hb
    by_cases hba : b = a
    · right
      rw [hba, heap_t.size, hheader, update_self, hsize]
      simp only [HEADER_SIZE, HEAP_ALIGNMENT, PAGE_SIZE] at hlen hpages ⊢
      exact ⟨by omega, by omega, hmap, fun hne => absurd rfl hne⟩
    · left
      rw [hheader, update_of_ne hba]
      refine ⟨?_, by rintro _ ⟨⟩, rfl⟩
      rw [hlist] at hb
      rw [hl]
      simp only [mem_append, mem_cons] at hb ⊢
      tauto
  · rw [hruns]
    intro r hr
    rcases mem_cons.1 hr with rfl | hr
    · exact ⟨halign, hpages, hpos⟩
    · exact hi.pages r hr
  · intro b hb
    rw [hlarge] at hb
    rw [hheader, update_of_ne (ne_of_mem_of_not_mem hb hanotLarge)]
    exact hi.mapped b hb
  · intro b hb r hr
    rw [hlarge] at hb
    rw [segment_of_ne hheader (ne_of_mem_of_not_mem hb hanotLarge)]
    rw [hruns] at hr
    rcases mem_cons.1 hr with rfl | hr
    · exact Or.symm (hlargeApart b hb)
    · exact hi.outside b hb r hr

end Inv

end Patchwork.Heap
