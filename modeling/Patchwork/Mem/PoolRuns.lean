import Patchwork.Mem.Pool
/-!
# The pool along runs

The invariant of the pool: the list that `free` starts has exactly the elements that
nobody has, and a head that was loaded at the present version is the present one. An
exchange that succeeds was loaded at the present version, since the tag says so. So
`pool_alloc` takes the first element and its right successor, and `pool_free` puts its
element in front.
-/

namespace Patchwork.Pool

open List Option Function Lib

variable {C : Type} [DecidableEq C]

/-! ## The invariant -/

variable [Fintype C]

structure Inv (capacity : Nat) (s : System C) (l : List (BitVec 16)) : Prop where
  linked : Linked POOL_IDX_MAX s.pool.next (headIdx s.pool.free) l
  nodup : l.Nodup
  mem : ∀ i, i ∈ l ↔ i.toNat < capacity ∧ ¬ Owned s i
  range : ∀ i, Owned s i → i.toNat < capacity
  apart : ∀ c i, (s.place c).owns = some i → i ∉ s.held
  one : ∀ c d i, (s.place c).owns = some i → (s.place d).owns = some i → c = d
  tag : tag s.pool.free = s.version % 2 ^ 48
  loaded : ∀ c head, (s.place c).head = some head → s.since c ≤ s.version ∧
    Pool.tag head = s.since c % 2 ^ 48 ∧ (s.version = s.since c → head = s.pool.free)
  index : ∀ c head, s.place c = .allocNext head ∨ (∃ next, s.place c = .allocSwap head next) →
    headIdx head ≠ POOL_IDX_MAX
  next : ∀ c head next, s.place c = .allocSwap head next → s.version = s.since c →
    next = s.pool.next (headIdx head)
  link : ∀ c idx head, s.place c = .freeSwap idx head → s.pool.next idx = headIdx head
  used : s.pool.used = BitVec.ofNat 64 (s.held.card + tally Place.freeing s.place)

variable {capacity : Nat} {s s' : System C} {l : List (BitVec 16)} {c d : C} {i : BitVec 16} {o p : Place}
  {head : BitVec 64}
  {free new : BitVec 64} {nexts : BitVec 16 → BitVec 16} {v n : Nat}

omit [DecidableEq C] in
theorem Inv.right (hi : Inv capacity s l) : Right capacity s where
  list := ⟨l, hi.linked, hi.nodup, hi.mem⟩
  used hout := by
    have hzero : tally Place.freeing s.place = 0 := by simp [tally, hout, Place.freeing]
    have hle : s.held.card ≤ (Finset.range (2 ^ 16)).card := by
      apply Finset.card_le_card_of_injOn BitVec.toNat
      · intro i _
        exact Finset.mem_coe.2 (Finset.mem_range.2 i.isLt)
      · intro i _ j _ hij
        exact BitVec.eq_of_toNat_eq hij
    rw [Finset.card_range] at hle
    rw [hi.used, hzero, BitVec.toNat_ofNat, Nat.add_zero, Nat.mod_eq_of_lt (by omega)]

/-! ## The start -/

/-- The elements from `k` on are linked one to the next. -/
theorem linked_init (memory : BitVec 16 → BitVec 16) (hcap : capacity ≤ 65535) {m k : Nat} (hk : k + m + 1 = capacity) :
    Linked POOL_IDX_MAX (pool_init capacity memory).next (BitVec.ofNat 16 k)
      ((List.range' k (m + 1)).map (BitVec.ofNat 16)) := by
  have hval : ∀ j, j < capacity → (BitVec.ofNat 16 j).toNat = j := by
    intro j hj
    rw [BitVec.toNat_ofNat, Nat.mod_eq_of_lt (by omega)]
  have hmax := toNat_max
  have hne : BitVec.ofNat 16 k ≠ POOL_IDX_MAX := by
    intro heq
    rw [← BitVec.toNat_inj, hval k (by omega), hmax] at heq
    omega
  have hvalk := hval k (by omega)
  induction m generalizing k with
  | zero =>
    have hlast : (pool_init capacity memory).next (BitVec.ofNat 16 k) = POOL_IDX_MAX := by
      simp only [pool_init, hvalk]
      rw [if_pos (by omega), if_pos (by omega)]
    exact ⟨rfl, hne, hlast⟩
  | succ m ih =>
    have hnext : (pool_init capacity memory).next (BitVec.ofNat 16 k) = BitVec.ofNat 16 (k + 1) := by
      simp only [pool_init, hvalk]
      rw [if_pos (by omega), if_neg (by omega), BitVec.ofNat_add]
      rfl
    refine ⟨rfl, hne, ?_⟩
    rw [hnext]
    have hvalk' := hval (k + 1) (by omega)
    refine ih (by omega) ?_ hvalk'
    intro heq
    rw [← BitVec.toNat_inj, hvalk', hmax] at heq
    omega

omit [DecidableEq C] in
theorem inv_init (memory : BitVec 16 → BitVec 16) (hpos : 0 < capacity) (hcap : capacity ≤ 65535) :
    ∃ l, Inv capacity (init capacity memory : System C) l := by
  have hfree : ∀ i, ¬ Owned (init capacity memory : System C) i := by
    rintro i (hheld | ⟨c, hc⟩)
    · cases hheld
    · cases hc
  have hlinked := linked_init memory hcap (m := capacity - 1) (k := 0) (by omega)
  have hzero : headIdx (init capacity memory : System C).pool.free = BitVec.ofNat 16 0 := by
    simp [init, pool_init, headIdx]
  rw [Nat.sub_add_cancel hpos, ← range_eq_range', ← hzero] at hlinked
  have htag : tag (init capacity memory : System C).pool.free = 0 := by
    simp [init, pool_init, tag]
  refine ⟨_, hlinked, ?_, fun i => ?_, fun i hi => absurd hi (hfree i), by rintro _ _ ⟨⟩,
    by rintro _ _ _ ⟨⟩, htag, by rintro _ _ ⟨⟩, ?_, by rintro _ _ _ ⟨⟩, by rintro _ _ _ ⟨⟩, ?_⟩
  · refine List.Nodup.map_on ?_ nodup_range
    intro a ha b hb hab
    rw [mem_range] at ha hb
    rw [← BitVec.toNat_inj, BitVec.toNat_ofNat, BitVec.toNat_ofNat] at hab
    omega
  · simp only [List.mem_map, mem_range, hfree i, not_false_eq_true, and_true]
    constructor
    · rintro ⟨a, ha, rfl⟩
      rw [BitVec.toNat_ofNat, Nat.mod_eq_of_lt (by omega)]
      exact ha
    · intro hi
      exact ⟨i.toNat, hi, by simp⟩
  · rintro c head (h | ⟨_, h⟩) <;> cases h
  · have hnone : tally Place.freeing (init capacity memory : System C).place = 0 := by
      simp [tally, init, Place.freeing]
    rw [hnone]
    rfl

/-! ## Steps that leave the list alone -/

/-- What a CPU knows at place `p`, with a head that it loaded at version `n`. -/
structure Informed (free : BitVec 64) (nexts : BitVec 16 → BitVec 16) (v n : Nat) (p : Place) : Prop where
  loaded : ∀ head, p.head = some head → n ≤ v ∧ Pool.tag head = n % 2 ^ 48 ∧ (v = n → head = free)
  index : ∀ head, p = .allocNext head ∨ (∃ next, p = .allocSwap head next) → headIdx head ≠ POOL_IDX_MAX
  next : ∀ head next, p = .allocSwap head next → v = n → next = nexts (headIdx head)
  link : ∀ idx head, p = .freeSwap idx head → nexts idx = headIdx head

theorem Informed.of_head (hp : p.head = none) : Informed free nexts v n p := by
  constructor
  · rw [hp]
    nofun
  · rintro head (rfl | ⟨next, rfl⟩)
    · cases hp
    · cases hp
  · rintro head next rfl
    cases hp
  · rintro idx head rfl
    cases hp

/-- After an exchange, no head that was loaded before is the present one. -/
theorem Informed.stale (h : Informed free nexts v n p) : Informed new nexts (v + 1) n p := by
  refine ⟨fun head hp => ?_, h.index, fun head next hp hv => ?_, h.link⟩
  · obtain ⟨hle, htag, -⟩ := h.loaded head hp
    exact ⟨hle.trans (Nat.le_succ _), htag, fun hv => by omega⟩
  · have := (h.loaded head (by rw [hp]; rfl)).1
    omega

section
variable (hi : Inv capacity s l)
include hi

omit [DecidableEq C] in
theorem Inv.informed (c : C) : Informed s.pool.free s.pool.next s.version (s.since c) (s.place c) :=
  ⟨hi.loaded c, hi.index c, hi.next c, hi.link c⟩

/-- Who owns an element when `c` has gone on. -/
theorem Inv.owned_update {x y : Option (BitVec 16)} (hc : s.place c = o) (hx : o.owns = x)
    (hy : p.owns = y) (j : BitVec 16) : (∃ d, (update s.place c p d).owns = some j) ↔
      y = some j ∨ (∃ d, (s.place d).owns = some j) ∧ x ≠ some j := by
  subst hc hx hy
  constructor
  · rintro ⟨d, hd⟩
    rcases update_map_cases Place.owns hd with ⟨-, hd⟩ | ⟨hdc, hd⟩
    · exact .inl hd
    · exact .inr ⟨⟨d, hd⟩, fun hc => hdc (hi.one d c j hd hc)⟩
  · rintro (hp | ⟨⟨d, hd⟩, hc⟩)
    · exact ⟨c, by rw [update_self]; exact hp⟩
    · have hdc : d ≠ c := by
        rintro rfl
        exact hc hd
      exact ⟨d, by rw [update_of_ne hdc]; exact hd⟩

/-- The CPU `c` goes on, and elements change hands only between the CPUs and the holders. -/
theorem Inv.change (hpool : s'.pool.next = s.pool.next)
    (hfree : s'.pool.free = s.pool.free) (hversion : s'.version = s.version)
    (hplace : s'.place = update s.place c p) (hsince : s'.since = update s.since c n)
    (howned : ∀ i, Owned s' i ↔ Owned s i) (hapart : ∀ d i, (s'.place d).owns = some i → i ∉ s'.held)
    (hone : ∀ d i, p.owns = some i → (s.place d).owns = some i → d = c)
    (hused : s'.pool.used = BitVec.ofNat 64 (s'.held.card + tally Place.freeing s'.place))
    (hp : Informed s.pool.free s.pool.next s.version n p) : Inv capacity s' l := by
  have hinformed : ∀ d, Informed s'.pool.free s'.pool.next s'.version (s'.since d) (s'.place d) := by
    intro d
    rw [hpool, hfree, hversion, hplace, hsince]
    by_cases hdc : d = c
    · rw [hdc, update_self, update_self]
      exact hp
    · rw [update_of_ne hdc, update_of_ne hdc]
      exact hi.informed d
  exact ⟨by rw [hpool, hfree]; exact hi.linked, hi.nodup, fun i => by rw [hi.mem, howned],
    fun i hown => hi.range i ((howned i).1 hown), hapart, hplace ▸ one_update (Place.owns · = some ·) hi.one hone,
    by rw [hfree, hversion]; exact hi.tag, fun d => (hinformed d).loaded, fun d => (hinformed d).index,
    fun d => (hinformed d).next, fun d => (hinformed d).link, hused⟩

section
variable (hc : s.place c = o) (howns : p.owns = o.owns)
include hc howns

theorem Inv.move {u : BitVec 64}
    (hused : u = BitVec.ofNat 64 (s.held.card + tally Place.freeing (update s.place c p)))
    (hp : Informed s.pool.free s.pool.next s.version n p) :
    Inv capacity
      { s with
        pool := { s.pool with used := u }
        place := update s.place c p
        since := update s.since c n } l := by
  have hsame : ∀ d, (update s.place c p d).owns = (s.place d).owns :=
    update_map_eq _ (by rw [howns, hc])
  refine hi.change rfl rfl rfl rfl rfl ?_ ?_ ?_ hused hp
  · intro i
    simp only [Owned, hsame]
  · intro d i hd
    exact hi.apart d i (by rw [← hsame]; exact hd)
  · intro d i hp hd
    exact hi.one d c i hd (by rw [hc, ← howns]; exact hp)

theorem Inv.goto (hfreeing : p.freeing = o.freeing)
    (hp : Informed s.pool.free s.pool.next s.version (s.since c) p) : Inv capacity (s.goto c p) l := by
  have hmove := hi.move (u := s.pool.used) hc howns (by rw [tally_stay _ _ hc hfreeing]; exact hi.used) hp
  rwa [update_eq_self] at hmove

theorem Inv.load (hfreeing : p.freeing = o.freeing)
    (hp : Informed s.pool.free s.pool.next s.version s.version p) : Inv capacity (s.load c p) l :=
  hi.move hc howns (by rw [tally_stay _ _ hc hfreeing]; exact hi.used) hp

end

theorem inv_free (hc : s.place c = .outside) (hheld : i ∈ s.held) :
    Inv capacity { s.goto c (.freeLoad i) with held := s.held.erase i } l := by
  have hnone : ∀ d, (s.place d).owns ≠ some i := fun d hd => hi.apart d i hd hheld
  refine hi.change (n := s.since c) rfl rfl rfl rfl (update_eq_self _ _).symm ?_ ?_ ?_ ?_ (.of_head rfl)
  · intro j
    simp only [Owned, System.goto, Finset.mem_erase,
      hi.owned_update (x := none) (y := some i) (p := .freeLoad i) hc rfl rfl, some.injEq]
    by_cases hji : j = i
    · simp [hji, hheld]
    · simp [hji, Ne.symm hji]
  · intro d j hd
    simp only [System.goto, Finset.mem_erase, not_and] at hd ⊢
    rcases update_map_cases Place.owns hd with ⟨-, hd⟩ | ⟨-, hd⟩
    · exact fun hji => absurd (some.inj hd).symm hji
    · exact fun _ => hi.apart d j hd
  · intro d j hj hd
    exact absurd (hd.trans hj.symm) (hnone d)
  · have hcount := tally_enter Place.freeing (.freeLoad i) hc rfl rfl
    have hcard := Finset.card_erase_add_one hheld
    simp only [System.goto]
    rw [hcount, hi.used]
    congr 1
    omega

theorem inv_allocUsed (hc : s.place c = .allocUsed i) :
    Inv capacity
      { s.goto c .outside with pool := { s.pool with used := s.pool.used + 1 }, held := insert i s.held } l := by
  have hnot : i ∉ s.held := hi.apart c i (by rw [hc]; rfl)
  have hold : ∀ d j, (update s.place c .outside d).owns = some j → d ≠ c ∧ (s.place d).owns = some j :=
    fun d j hd => of_update_map Place.owns hd nofun
  refine hi.change (n := s.since c) rfl rfl rfl rfl (update_eq_self _ _).symm ?_ ?_ ?_ ?_ (.of_head rfl)
  · intro j
    simp only [Owned, System.goto, Finset.mem_insert,
      hi.owned_update (x := some i) (y := none) (p := .outside) hc rfl rfl]
    by_cases hji : j = i
    · exact iff_of_true (.inl (.inl hji)) (.inr ⟨c, by rw [hc, hji]; rfl⟩)
    · simp [hji, Ne.symm hji]
  · intro d j hd
    simp only [System.goto] at hd
    obtain ⟨hdc, hd⟩ := hold d j hd
    simp only [Finset.mem_insert, not_or]
    refine ⟨?_, hi.apart d j hd⟩
    rintro rfl
    exact hdc (hi.one d c j hd (by rw [hc]; rfl))
  · nofun
  · have hcount := tally_stay Place.freeing .outside hc rfl
    simp only [System.goto]
    rw [hcount, hi.used, Finset.card_insert_of_notMem hnot, Nat.add_right_comm]
    exact (BitVec.ofNat_add _ _).symm

omit [DecidableEq C] in
theorem Inv.not_owned (hne : headIdx s.pool.free ≠ POOL_IDX_MAX) :
    (headIdx s.pool.free).toNat < capacity ∧ ¬ Owned s (headIdx s.pool.free) := by
  obtain ⟨l', rfl, -⟩ := hi.linked.pop hne
  exact (hi.mem _).1 mem_cons_self

omit [DecidableEq C] in
theorem Inv.store (hown : Owned s i) (hlink : ∀ c head, s.place c ≠ .freeSwap i head)
    (v : BitVec 16) : Inv capacity { s with pool := { s.pool with next := update s.pool.next i v } } l := by
  have hnot : i ∉ l := fun hm => ((hi.mem i).1 hm).2 hown
  refine { hi with linked := hi.linked.update hnot v, next := fun d head next hd hv => ?_, link := fun d idx head hd => ?_ }
  · -- What a CPU read from the first element still stands.
    have hfree := (hi.loaded d head (by rw [hd]; rfl)).2.2 hv
    have hne : headIdx head ≠ POOL_IDX_MAX := hi.index d head (.inr ⟨next, hd⟩)
    have hi' : headIdx head ≠ i := by
      rintro rfl
      rw [hfree] at hne hown
      exact (hi.not_owned hne).2 hown
    simp only [update_of_ne hi']
    exact hi.next d head next hd hv
  · have hne : idx ≠ i := by
      rintro rfl
      exact hlink d head hd
    simp only [update_of_ne hne]
    exact hi.link d idx head hd

/-! ## The exchanges -/

omit [DecidableEq C] in
/-- An exchange that succeeds finds everything as it was at the load. -/
theorem Inv.version_eq (hc : (s.place c).head = some head)
    (hfree : s.pool.free = head) (htimely : s.version < s.since c + 2 ^ 48) : s.version = s.since c := by
  obtain ⟨hle, htag, -⟩ := hi.loaded c head hc
  have := hi.tag
  rw [hfree, htag] at this
  omega

theorem Inv.swap {l' : List (BitVec 16)} (htag : Pool.tag new = (Pool.tag s.pool.free + 1) % 2 ^ 48)
    (hlinked : Linked POOL_IDX_MAX s.pool.next (headIdx new) l') (hnodup : l'.Nodup)
    (hmem : ∀ i, i ∈ l' ↔ i.toNat < capacity ∧ ¬ Owned (s.swap c new p) i)
    (hrange : ∀ i, Owned (s.swap c new p) i → i.toNat < capacity)
    (hapart : ∀ i, p.owns = some i → i ∉ s.held)
    (hone : ∀ d i, p.owns = some i → (s.place d).owns = some i → d = c)
    (hhead : p.head = none) (hc : s.place c = o) (hfreeing : p.freeing = o.freeing) :
    Inv capacity (s.swap c new p) l' := by
  have hinformed : ∀ d, Informed new s.pool.next (s.version + 1) (s.since d) (update s.place c p d) := by
    intro d
    by_cases hdc : d = c
    · rw [hdc, update_self]
      exact .of_head hhead
    · rw [update_of_ne hdc]
      exact (hi.informed d).stale
  refine ⟨hlinked, hnodup, hmem, hrange, ?_, one_update (Place.owns · = some ·) hi.one hone, ?_,
    fun d => (hinformed d).loaded, fun d => (hinformed d).index, fun d => (hinformed d).next,
    fun d => (hinformed d).link, ?_⟩
  · intro d i hd
    rcases update_map_cases Place.owns hd with ⟨-, hd⟩ | ⟨-, hd⟩
    · exact hapart i hd
    · exact hi.apart d i hd
  · simp only [System.swap, System.goto]
    rw [htag, hi.tag]
    omega
  · simp only [System.swap, System.goto]
    rw [tally_stay _ _ hc hfreeing]
    exact hi.used

/-- The first element is `c`'s own now. -/
theorem owned_allocSwap {next : BitVec 16} (hc : s.place c = .allocSwap head next)
    (new : BitVec 64) (i : BitVec 16) :
    Owned (s.swap c new (.allocUsed (headIdx head))) i ↔ Owned s i ∨ i = headIdx head := by
  simp only [Owned, System.swap, System.goto,
    hi.owned_update (x := none) (y := some (headIdx head)) (p := .allocUsed (headIdx head)) hc rfl rfl]
  by_cases hih : i = headIdx head
  · simp [hih]
  · simp [hih, Ne.symm hih]

theorem owned_freeSwap (hc : s.place c = .freeSwap i head)
    (new : BitVec 64) (j : BitVec 16) : Owned (s.swap c new .freeUsed) j ↔ Owned s j ∧ j ≠ i := by
  have hnot : i ∉ s.held := hi.apart c i (by rw [hc]; rfl)
  simp only [Owned, System.swap, System.goto,
    hi.owned_update (x := some i) (y := none) (p := .freeUsed) hc rfl rfl]
  by_cases hji : j = i
  · simp [hji, hnot]
  · simp [hji, Ne.symm hji]

theorem inv_allocSwap {next : BitVec 16} (hc : s.place c = .allocSwap head next)
    (hfree : s.pool.free = head) (hversion : s.version = s.since c) :
    ∃ l', Inv capacity (s.swap c (newHead head next) (.allocUsed (headIdx head))) l' := by
  have htag := tag_newHead head next
  have hidx := headIdx_newHead head next
  generalize newHead head next = new at htag hidx ⊢
  have hne : headIdx s.pool.free ≠ POOL_IDX_MAX := hfree ▸ hi.index c head (.inr ⟨next, hc⟩)
  have hnext := hi.next c head next hc hversion
  obtain ⟨hlt, hnot⟩ := hi.not_owned hne
  obtain ⟨l', rfl, hl'⟩ := hi.linked.pop hne
  obtain ⟨hhead, hnodup⟩ := nodup_cons.1 hi.nodup
  rw [hfree] at hlt hnot hl' hhead
  have howned := owned_allocSwap hi hc new
  refine ⟨l', hi.swap (by rw [hfree]; exact htag) (by rw [hidx, hnext]; exact hl') hnodup ?_ ?_ ?_ ?_ rfl hc rfl⟩
  · intro i
    have hi' := hi.mem i
    rw [mem_cons, hfree] at hi'
    rw [howned]
    by_cases hih : i = headIdx head
    · simp [hih, hhead]
    · simpa [hih] using hi'
  · intro i hown
    rcases (howned i).1 hown with hown | rfl
    · exact hi.range i hown
    · exact hlt
  · intro i hown hheld
    exact hnot (.inl (some.inj hown ▸ hheld))
  · intro d i hown hd
    exact absurd (.inr ⟨d, hd.trans hown.symm⟩) hnot

theorem inv_freeSwap (hcap : capacity ≤ 65535)
    (hc : s.place c = .freeSwap i head) (hfree : s.pool.free = head) :
    ∃ l', Inv capacity (s.swap c (newHead head i) .freeUsed) l' := by
  have htag := tag_newHead head i
  have hidx := headIdx_newHead head i
  generalize newHead head i = new at htag hidx ⊢
  have hown : Owned s i := .inr ⟨c, by rw [hc]; rfl⟩
  have hlt := hi.range i hown
  have hnot : i ∉ l := fun hm => ((hi.mem i).1 hm).2 hown
  have hmax : i ≠ POOL_IDX_MAX := by
    rintro rfl
    have hmax := toNat_max
    omega
  have hlinked := hi.linked
  rw [hfree] at hlinked
  have howned := owned_freeSwap hi hc new
  refine ⟨i :: l, hi.swap (by rw [hfree]; exact htag) ?_ (nodup_cons.2 ⟨hnot, hi.nodup⟩) ?_ ?_ nofun nofun rfl hc rfl⟩
  · rw [hidx]
    exact hlinked.push hmax (hi.link c i head hc)
  · intro j
    rw [mem_cons, hi.mem, howned]
    by_cases hji : j = i
    · simp [hji, hlt]
    · simp [hji]
  · intro j hj
    exact hi.range j ((howned j).1 hj).1

/-! ## Runs -/

theorem inv_advance {fails : Bool} (hcap : capacity ≤ 65535) (ht : Timely s (.advance c fails))
    (hs : advance s c fails = some s') : ∃ l', Inv capacity s' l' := by
  have hpresent : s.version ≤ s.version ∧ Pool.tag s.pool.free = s.version % 2 ^ 48 ∧
      (s.version = s.version → s.pool.free = s.pool.free) := ⟨le_rfl, hi.tag, fun _ => rfl⟩
  unfold advance at hs
  cases hc : s.place c <;> simp only [hc, reduceCtorEq] at hs
  case allocLoad =>
    split_ifs at hs with hmax
    · cases hs
      exact ⟨l, hi.goto hc rfl rfl (.of_head rfl)⟩
    · cases hs
      refine ⟨l, hi.load hc rfl rfl ⟨fun h hh => some.inj hh ▸ hpresent, ?_, nofun, nofun⟩⟩
      rintro h (hh | ⟨next, hh⟩)
      · exact Place.allocNext.inj hh ▸ hmax
      · cases hh
  case allocNext head =>
    cases hs
    have hindex := hi.index c head (.inl hc)
    have hloaded := hi.loaded c
    rw [hc] at hloaded
    refine ⟨l, hi.goto hc rfl rfl ⟨hloaded, ?_, ?_, nofun⟩⟩
    · rintro h (hh | ⟨next, hh⟩)
      · cases hh
      · exact (Place.allocSwap.inj hh).1 ▸ hindex
    · intro h next hh _
      obtain ⟨rfl, rfl⟩ := Place.allocSwap.inj hh
      rfl
  case allocSwap head next =>
    split_ifs at hs with hswap
    · cases hs
      have hhead : (s.place c).head = some head := by rw [hc]; rfl
      exact inv_allocSwap hi hc hswap.1 (hi.version_eq hhead hswap.1 (ht head hhead hswap.1.symm))
    · cases hs
      exact ⟨l, hi.goto hc rfl rfl (.of_head rfl)⟩
  case allocUsed idx =>
    cases hs
    exact ⟨l, inv_allocUsed hi hc⟩
  case freeLoad idx =>
    cases hs
    exact ⟨l, hi.load hc rfl rfl ⟨fun h hh => some.inj hh ▸ hpresent, fun h hh => hh.elim nofun nofun, nofun, nofun⟩⟩
  case freeStore idx head =>
    cases hs
    have howns : (s.place c).owns = some idx := by rw [hc]; rfl
    have hstore := hi.store (.inr ⟨c, howns⟩) (fun d h hd => by
      obtain rfl := hi.one d c idx (by rw [hd]; rfl) howns
      rw [hc] at hd
      cases hd) (headIdx head)
    have hloaded := hi.loaded c
    rw [hc] at hloaded
    refine ⟨l, hstore.goto hc rfl rfl ⟨hloaded, fun h hh => hh.elim nofun nofun, nofun, ?_⟩⟩
    intro i h hh
    obtain ⟨rfl, rfl⟩ := Place.freeSwap.inj hh
    exact update_self ..
  case freeSwap idx head =>
    split_ifs at hs with hswap
    · cases hs
      exact inv_freeSwap hi hcap hc hswap.1
    · cases hs
      exact ⟨l, hi.goto hc rfl rfl (.of_head rfl)⟩
  case freeUsed =>
    cases hs
    have hcount := tally_leave Place.freeing .outside hc rfl rfl
    have hmove := hi.move (p := .outside) (n := s.since c) (u := s.pool.used - 1) hc rfl (by
      rw [hi.used, ← hcount, ← Nat.add_assoc, BitVec.ofNat_add]
      exact BitVec.add_sub_cancel _ _) (.of_head rfl)
    rw [update_eq_self] at hmove
    exact ⟨l, hmove⟩

end

theorem inv_step {a : Action C} (hcap : capacity ≤ 65535) (hi : ∃ l, Inv capacity s l) (ht : Timely s a)
    (hs : step s a = some s') : ∃ l, Inv capacity s' l := by
  obtain ⟨l, hi⟩ := hi
  cases a <;> simp only [step] at hs
  case alloc c =>
    split_ifs at hs with hc
    cases hs
    exact ⟨l, hi.goto hc rfl rfl (.of_head rfl)⟩
  case free c idx =>
    split_ifs at hs with hc
    cases hs
    exact ⟨l, inv_free hi hc.1 hc.2⟩
  case write idx value =>
    split_ifs at hs with hheld
    cases hs
    exact ⟨l, hi.store (.inl hheld) (fun d h hd => hi.apart d idx (by rw [hd]; rfl) hheld) value⟩
  case advance c fails => exact inv_advance hi hcap ht hs

theorem Inv.served (hi : Inv capacity s l) {a : Action C} : Served capacity s a := by
  cases a with
  | alloc | free | write => trivial
  | advance c fails =>
    intro s' hs
    simp only [step, advance] at hs
    constructor
    · intro head next hc i hi'
      simp only [hc] at hs
      split_ifs at hs with hswap
      · rw [← some.inj hs] at hi'
        have hidx : headIdx head = i := by simpa [System.swap, System.goto] using hi'
        rw [← hidx, ← hswap.1]
        exact hi.not_owned (hswap.1 ▸ hi.index c head (.inr ⟨next, hc⟩))
      · rw [← some.inj hs] at hi'
        simp [System.goto] at hi'
    · intro hc hout
      simp only [hc] at hs
      split_ifs at hs with hmax
      · exact hmax
      · rw [← some.inj hs] at hout
        simp [System.load, System.goto] at hout

omit [DecidableEq C] [Fintype C] in
/-- A pool whose list is right at the start has elements, and no more than there are
indices below `POOL_IDX_MAX`. -/
theorem capacity_of_right {memory : BitVec 16 → BitVec 16} (h : Right capacity (init capacity memory : System C)) :
    0 < capacity ∧ capacity ≤ 65535 := by
  obtain ⟨l, hl, -, hmem⟩ := h.list
  have hfree : ∀ i, ¬ Owned (init capacity memory : System C) i := by
    rintro i (hheld | ⟨c, hc⟩)
    · cases hheld
    · cases hc
  constructor
  · obtain ⟨l', rfl, -⟩ := hl.pop (by simp [init, pool_init, headIdx, POOL_IDX_MAX])
    exact Nat.zero_lt_of_lt ((hmem _).1 mem_cons_self).1
  · by_contra hlt
    have hmax := toNat_max
    exact hl.null_notMem ((hmem POOL_IDX_MAX).2 ⟨by omega, hfree _⟩)

/-- Along every run of any number of CPUs in which the tag does not go all the way
round between a load and the exchange, the pool is right in every state and serves
every call, exactly if it has between 1 and 65535 elements. -/
theorem pool_right_iff (capacity : Nat) (memory : BitVec 16 → BitVec 16) :
    (∀ as, Along step Timely (init capacity memory : System C) as →
      Always step (Right capacity) (init capacity memory : System C) as ∧
      Along step (Served capacity) (init capacity memory : System C) as) ↔
    0 < capacity ∧ capacity ≤ 65535 := by
  constructor
  · intro h
    exact capacity_of_right (h [] trivial).1
  · rintro ⟨hpos, hcap⟩ as has
    have hinit := inv_init (C := C) memory hpos hcap
    constructor
    · refine (has.always (fun s a s' hi ht hs => inv_step hcap hi ht hs) hinit).mono ?_
      rintro s ⟨l, hi⟩
      exact hi.right
    · refine has.along (fun s a s' hi ht hs => inv_step hcap hi ht hs) ?_ hinit
      rintro s a ⟨l, hi⟩ _
      exact hi.served

/-- A call of `pool_alloc`, up to its exchange. -/
def taken : List (Action Unit) := [.alloc (), .advance () false, .advance () false, .advance () false]

/-- From a pool without elements the call takes the index 0. -/
theorem taken_not_served : ¬ Along step (Served 0) (init 0 fun _ => POOL_IDX_MAX : System Unit) taken := by
  intro h
  have h := (((h.2 _ rfl).2 _ rfl).2 _ rfl).1 _ rfl
  exact absurd (h.1 0 POOL_IDX_MAX rfl 0 rfl).1 (Nat.not_lt_zero _)

end Patchwork.Pool
