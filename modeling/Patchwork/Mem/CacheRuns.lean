import Patchwork.Lib.Agents
import Patchwork.Mem.Cache
/-!
# Runs of the slab cache

A slab without an owner loses no object, since only its owner allocates from it. So as
long as every `cache_free` acts on what is still the case, a slab of `partial` without
an owner has a free object, and one of `free` has nothing else.
-/

namespace Patchwork.Cache

open Option List Function Lib

variable {C A : Type} [DecidableEq A] {amount : Nat}

/-! ## The lists -/

namespace cache_t

variable {cache : cache_t C A} {a x : A}

omit [DecidableEq A] in
theorem mem_slabs : x ∈ cache.slabs ↔ x ∈ cache.free ∨ x ∈ cache.partials ∨ x ∈ cache.full := by
  simp [slabs]

section
variable (h : cache.slabs.Nodup)
include h

omit [DecidableEq A] in
theorem apart :
    (x ∈ cache.free → x ∉ cache.partials) ∧ (x ∈ cache.free → x ∉ cache.full) ∧
      (x ∈ cache.partials → x ∉ cache.full) := by
  obtain ⟨hleft, -, hright⟩ := nodup_append.1 h
  obtain ⟨-, -, hinner⟩ := nodup_append.1 hleft
  exact ⟨fun hf hp => hinner x hf x hp rfl, fun hf hl => hright x (mem_append_left _ hf) x hl rfl,
    fun hp hl => hright x (mem_append_right _ hp) x hl rfl⟩

theorem mem_remove :
    (x ∈ (cache.list_remove a).free ↔ x ≠ a ∧ x ∈ cache.free) ∧
      (x ∈ (cache.list_remove a).partials ↔ x ≠ a ∧ x ∈ cache.partials) ∧
      (x ∈ (cache.list_remove a).full ↔ x ≠ a ∧ x ∈ cache.full) := by
  obtain ⟨hleft, hfull, -⟩ := nodup_append.1 h
  obtain ⟨hfree, hpartials, -⟩ := nodup_append.1 hleft
  exact ⟨hfree.mem_erase_iff, hpartials.mem_erase_iff, hfull.mem_erase_iff⟩

theorem nodup_remove : (cache.list_remove a).slabs.Nodup :=
  h.sublist ((erase_sublist.append erase_sublist).append erase_sublist)

theorem mem_slabs_remove : x ∈ (cache.list_remove a).slabs ↔ x ≠ a ∧ x ∈ cache.slabs := by
  rw [mem_slabs, mem_slabs, (mem_remove h).1, (mem_remove h).2.1, (mem_remove h).2.2]
  simp only [and_or_left]

theorem nodup_move {l : List A} (hl : l.Perm (a :: (cache.list_remove a).slabs)) : l.Nodup := by
  rw [hl.nodup_iff, nodup_cons, mem_slabs_remove h]
  exact ⟨fun h => h.1 rfl, nodup_remove h⟩

end

theorem perm_toFree (cache : cache_t C A) (a : A) :
    (cache.toFree a).slabs.Perm (a :: (cache.list_remove a).slabs) := by
  simp only [slabs, toFree, append_assoc]
  exact perm_middle

theorem perm_toPartials (cache : cache_t C A) (a : A) :
    (cache.toPartials a).slabs.Perm (a :: (cache.list_remove a).slabs) := by
  simp only [slabs, toPartials, append_assoc]
  rw [← append_assoc, ← append_assoc _ (cache.list_remove a).partials]
  exact perm_middle

theorem perm_toFull (cache : cache_t C A) (a : A) :
    (cache.toFull a).slabs.Perm (a :: (cache.list_remove a).slabs) := by
  simp only [slabs, toFull, ← append_assoc]
  exact perm_append_singleton _ _

theorem mem_move (h : cache.slabs.Nodup) {l : List A} (hl : l.Perm (a :: (cache.list_remove a).slabs)) :
    x ∈ l ↔ x = a ∨ x ∈ cache.slabs := by
  rw [hl.mem_iff, mem_cons, mem_slabs_remove h]
  by_cases hx : x = a <;> simp [hx]

theorem mem_move_of_mem (h : cache.slabs.Nodup) {l : List A} (hl : l.Perm (a :: (cache.list_remove a).slabs))
    (ha : a ∈ cache.slabs) : x ∈ l ↔ x ∈ cache.slabs := by
  rw [mem_move h hl, or_iff_right_of_imp]
  exact fun hx => hx ▸ ha

theorem mem_moved {l : List A} (h : l.Nodup) : x ∈ l.erase a ++ [a] ↔ x = a ∨ x ∈ l := by
  rw [mem_append, h.mem_erase_iff, mem_singleton]
  by_cases hx : x = a <;> simp [hx]

theorem mem_toFree (h : cache.slabs.Nodup) :
    (x ∈ (cache.toFree a).free ↔ x = a ∨ x ∈ cache.free) ∧
      (x ∈ (cache.toFree a).partials ↔ x ≠ a ∧ x ∈ cache.partials) ∧
      (x ∈ (cache.toFree a).full ↔ x ≠ a ∧ x ∈ cache.full) :=
  ⟨mem_moved (nodup_append.1 (nodup_append.1 h).1).1, (mem_remove h).2⟩

theorem mem_toPartials (h : cache.slabs.Nodup) :
    (x ∈ (cache.toPartials a).free ↔ x ≠ a ∧ x ∈ cache.free) ∧
      (x ∈ (cache.toPartials a).partials ↔ x = a ∨ x ∈ cache.partials) ∧
      (x ∈ (cache.toPartials a).full ↔ x ≠ a ∧ x ∈ cache.full) :=
  ⟨(mem_remove h).1, mem_moved (nodup_append.1 (nodup_append.1 h).1).2.1, (mem_remove h).2.2⟩

theorem mem_toFull (h : cache.slabs.Nodup) :
    (x ∈ (cache.toFull a).free ↔ x ≠ a ∧ x ∈ cache.free) ∧
      (x ∈ (cache.toFull a).partials ↔ x ≠ a ∧ x ∈ cache.partials) ∧
      (x ∈ (cache.toFull a).full ↔ x = a ∨ x ∈ cache.full) :=
  ⟨(mem_remove h).1, (mem_remove h).2.1, mem_moved (nodup_append.1 h).2.1⟩

end cache_t

/-! ## The invariant -/

open cache_t

structure Inv (amount : Nat) (s : System C A) : Prop where
  nodup : s.cache.slabs.Nodup
  freeCount : s.cache.freeCount = s.cache.free.length
  slab : ∀ a ∈ s.cache.slabs, (s.slab a).Ok amount (s.live a)
  gone : ∀ a ∉ s.cache.slabs, Unused s a
  free : ∀ a ∈ s.cache.free, (s.slab a).owner = none ∧ (s.slab a).freeCount.toNat = amount
  partials : ∀ a ∈ s.cache.partials, (s.slab a).owner = none → (s.slab a).freeCount ≠ 0
  full : ∀ a ∈ s.cache.full, (s.slab a).owner = none ∧ ((s.slab a).freeCount = 0 ∨ ∃ p ∈ s.pending, p.slab = a)
  pending : ∀ p ∈ s.pending, p.wasFull = true ∨ p.isEmpty = true
  active : ∀ c a, s.cache.active c = some a → a ∈ s.cache.partials ∧ (s.slab a).owner = some c
  owner : ∀ a c, (s.slab a).owner = some c → s.cache.active c = some a
  retry : ∀ c a, s.place c = .retry a → s.cache.active c = some a
  picked : ∀ c a, s.place c = .picked a → s.cache.active c = some a ∧ (s.slab a).freeCount ≠ 0
  served : ∀ c failed, s.place c = .returned none failed → failed = true

variable {s s' : System C A} {c : C} {a : A} {p : Pending A}

omit [DecidableEq A] in
theorem inv_init : Inv amount (init : System C A) := by
  constructor <;> simp [init, slabs, Unused, cache_slab_new]

omit [DecidableEq A] in
theorem Inv.right (hi : Inv amount s) : Right amount s where
  freeCount := hi.freeCount
  free a ha := ⟨(hi.slab a (mem_slabs.2 (.inl ha))).live_empty (hi.free a ha).2, (hi.free a ha).1⟩
  destroyed := hi.gone
  full a ha := by
    refine (hi.full a ha).2.imp_left fun hzero i hlt => ?_
    exact (hi.slab a (mem_slabs.2 (.inr (.inr ha)))).all_live hzero hlt
  served := hi.served

section
variable (hi : Inv amount s)
include hi

omit [DecidableEq A] in
theorem Inv.not_free (ha : a ∈ s.cache.partials ∨ a ∈ s.cache.full) : a ∉ s.cache.free := fun hf =>
  ha.elim ((apart hi.nodup).1 hf) ((apart hi.nodup).2.1 hf)

theorem Inv.relist {cache : cache_t C A} (hactive : cache.active = s.cache.active)
    (hnodup : cache.slabs.Nodup) (hcount : cache.freeCount = cache.free.length)
    (hlisted : ∀ x ∈ cache.slabs, x ∈ s.cache.slabs)
    (hgone : ∀ x ∉ cache.slabs, x ∈ s.cache.slabs → x ∈ s.cache.free)
    (hfree : ∀ x ∈ cache.free, x ∈ s.cache.free ∨ (s.slab x).owner = none ∧ (s.slab x).freeCount.toNat = amount)
    (hpartials : ∀ x ∈ cache.partials, x ∈ s.cache.partials ∨ ((s.slab x).owner = none → (s.slab x).freeCount ≠ 0))
    (hfull : ∀ x ∈ cache.full, x ∈ s.cache.full)
    (howned : ∀ x ∈ s.cache.partials, (s.slab x).owner ≠ none → x ∈ cache.partials) :
    Inv amount { s with cache := cache } := by
  refine { hi with
    nodup := hnodup
    freeCount := hcount
    slab := fun x hx => hi.slab x (hlisted x hx)
    gone := fun x hx => ?_
    free := fun x hx => (hfree x hx).elim (hi.free x) id
    partials := fun x hx => (hpartials x hx).elim (hi.partials x) id
    full := fun x hx => hi.full x (hfull x hx)
    active := ?_
    owner := ?_
    retry := ?_
    picked := ?_ }
  · by_cases hx' : x ∈ s.cache.slabs
    · exact hi.right.free x (hgone x hx hx')
    · exact hi.gone x hx'
  all_goals simp only [hactive]
  · intro c x hx
    obtain ⟨hmem, hown⟩ := hi.active c x hx
    exact ⟨howned x hmem (by simp [hown]), hown⟩
  · exact hi.owner
  · exact hi.retry
  · exact hi.picked

theorem Inv.setSlab {slab : cache_slab_t C} {live : Finset Nat}
    (hin : a ∈ s.cache.partials ∨ a ∈ s.cache.full) (hok : slab.Ok amount live)
    (howner : slab.owner = (s.slab a).owner)
    (hpartials : a ∈ s.cache.partials → slab.owner = none → slab.freeCount ≠ 0)
    (hfull : a ∈ s.cache.full → slab.freeCount = 0 ∨ ∃ p ∈ s.pending, p.slab = a)
    (hpicked : ∀ c, s.place c = .picked a → slab.freeCount ≠ 0) :
    Inv amount { s with slab := update s.slab a slab, live := update s.live a live } := by
  have hown : ∀ x, (update s.slab a slab x).owner = (s.slab x).owner :=
    update_map_eq _ howner
  refine { hi with
    slab := fun x hx => ?_
    gone := fun x hx => ?_
    free := fun x hx => ?_
    partials := fun x hx hx' => ?_
    full := fun x hx => ⟨(hown x).trans (hi.full x hx).1, ?_⟩
    active := fun c x hx => ⟨(hi.active c x hx).1, (hown x).trans (hi.active c x hx).2⟩
    owner := fun x c hx => hi.owner x c ((hown x).symm.trans hx)
    picked := fun c x hx => ⟨(hi.picked c x hx).1, ?_⟩ }
  · by_cases hxa : x = a
    · subst hxa
      simpa using hok
    · simpa [hxa] using hi.slab x hx
  · have hxa : x ≠ a := fun he => hx (mem_slabs.2 (.inr (he ▸ hin)))
    simpa [Unused, hxa] using hi.gone x hx
  · have hxa : x ≠ a := fun he => hi.not_free hin (he ▸ hx)
    simpa [hxa] using hi.free x hx
  · by_cases hxa : x = a
    · subst hxa
      simp only [update_self] at hx' ⊢
      exact hpartials hx hx'
    · simp only [update_of_ne hxa] at hx' ⊢
      exact hi.partials x hx hx'
  · by_cases hxa : x = a
    · subst hxa
      simpa using hfull hx
    · simpa [hxa] using (hi.full x hx).2
  · by_cases hxa : x = a
    · subst hxa
      simpa using hpicked c hx
    · simpa [hxa] using (hi.picked c x hx).2

/-! ## `cache_free` -/

theorem Inv.toPartials (ha : a ∈ s.cache.partials ∨ a ∈ s.cache.full)
    (hpos : (s.slab a).owner = none → (s.slab a).freeCount ≠ 0) :
    Inv amount { s with cache := s.cache.toPartials a } := by
  have hmem := fun x => mem_move_of_mem (x := x) hi.nodup (perm_toPartials _ a) (mem_slabs.2 (.inr ha))
  refine hi.relist rfl (nodup_move hi.nodup (perm_toPartials _ a)) ?_ (fun x hx => (hmem x).1 hx)
    (fun x hx hx' => absurd ((hmem x).2 hx') hx) (fun x hx => .inl ((mem_toPartials hi.nodup).1.1 hx).2) ?_
    (fun x hx => ((mem_toPartials hi.nodup).2.2.1 hx).2) (fun x hx _ => (mem_toPartials hi.nodup).2.1.2 (.inr hx))
  · show s.cache.freeCount = (s.cache.free.erase a).length
    rw [erase_of_not_mem (hi.not_free ha)]
    exact hi.freeCount
  · intro x hx
    rcases (mem_toPartials hi.nodup).2.1.1 hx with rfl | hx
    · exact .inr hpos
    · exact .inl hx

theorem Inv.toFree (ha : a ∈ s.cache.partials ∨ a ∈ s.cache.full)
    (hown : (s.slab a).owner = none) (hempty : (s.slab a).freeCount.toNat = amount) :
    Inv amount { s with cache := { s.cache.toFree a with freeCount := s.cache.freeCount + 1 } } := by
  have hmem := fun x => mem_move_of_mem (x := x) hi.nodup (perm_toFree _ a) (mem_slabs.2 (.inr ha))
  refine hi.relist rfl (nodup_move hi.nodup (perm_toFree _ a)) ?_ (fun x hx => (hmem x).1 hx)
    (fun x hx hx' => absurd ((hmem x).2 hx') hx) ?_ (fun x hx => .inl ((mem_toFree hi.nodup).2.1.1 hx).2)
    (fun x hx => ((mem_toFree hi.nodup).2.2.1 hx).2) ?_
  · show s.cache.freeCount + 1 = (s.cache.free.erase a ++ [a]).length
    rw [erase_of_not_mem (hi.not_free ha), hi.freeCount]
    simp
  · intro x hx
    rcases (mem_toFree hi.nodup).1.1 hx with rfl | hx
    · exact .inr ⟨hown, hempty⟩
    · exact .inl hx
  · intro x hx hx'
    refine (mem_toFree hi.nodup).2.1.2 ⟨?_, hx⟩
    rintro rfl
    exact hx' hown

theorem Inv.destroy {rest : List A} (hfree : s.cache.free = a :: rest) :
    Inv amount { s with cache := { s.cache.list_remove a with freeCount := rest.length } } := by
  have ha : a ∈ s.cache.free := by simp [hfree]
  refine hi.relist rfl (nodup_remove hi.nodup) ?_ (fun x hx => ((mem_slabs_remove hi.nodup).1 hx).2) ?_
    (fun x hx => .inl ((mem_remove hi.nodup).1.1 hx).2) (fun x hx => .inl ((mem_remove hi.nodup).2.1.1 hx).2)
    (fun x hx => ((mem_remove hi.nodup).2.2.1 hx).2) ?_
  · simp [list_remove, hfree]
  · intro x hx hx'
    have hxa : x = a := by
      by_contra hne
      exact hx ((mem_slabs_remove hi.nodup).2 ⟨hne, hx'⟩)
    exact hxa ▸ ha
  · intro x hx _
    refine (mem_remove hi.nodup).2.1.2 ⟨?_, hx⟩
    rintro rfl
    exact (apart hi.nodup).1 ha hx

end

theorem inv_destroyLoop {n : Nat} {cache cache' : cache_t C A}
    (hi : Inv amount { s with cache := { cache with freeCount := n } }) (hs : destroyLoop cache n = some cache') :
    Inv amount { s with cache := cache' } ∧ ∀ x ∈ cache'.full, x ∈ cache.full := by
  induction n generalizing cache with
  | zero =>
    cases hs
    exact ⟨hi, fun _ => id⟩
  | succ n ih =>
    unfold destroyLoop at hs
    split_ifs at hs with hlimit
    · cases hfree : cache.free with
      | nil => simp [hfree] at hs
      | cons a rest =>
        simp only [hfree] at hs
        have hlength : n + 1 = rest.length + 1 := by simpa [hfree] using hi.freeCount
        have hdestroy : Inv amount { s with cache := { cache.list_remove a with freeCount := n } } := by
          rw [Nat.succ.inj hlength]
          exact hi.destroy hfree
        obtain ⟨hi', hfull⟩ := ih hdestroy hs
        exact ⟨hi', fun x hx => mem_of_mem_erase (hfull x hx)⟩
    · cases hs
      exact ⟨hi, fun _ => id⟩

/-- A `cache_free` ends, whose slab is not on `full`. -/
theorem Inv.done (hi : Inv amount s) (hp : p.slab ∉ s.cache.full) :
    Inv amount { s with pending := s.pending.erase p } := by
  refine { hi with
    full := fun x hx => ⟨(hi.full x hx).1, (hi.full x hx).2.imp_right ?_⟩
    pending := fun q hq => hi.pending q (mem_of_mem_erase hq) }
  rintro ⟨q, hq, rfl⟩
  refine ⟨q, (mem_erase_of_ne ?_).2 hq, rfl⟩
  rintro rfl
  exact hp hx

theorem inv_freeLists (hi : Inv amount s) (hp : p ∈ s.pending) (hfresh : Fresh amount s (.freeLists p))
    (hs : cache_free_lists s p = some s') : Inv amount s' := by
  obtain ⟨hin, hseen⟩ := hfresh
  simp only [cache_free_lists, if_pos (mem_slabs.2 (.inr hin))] at hs
  -- The first move, which takes a slab that was full from `full`.
  have hfirst : ∃ cache, cache = (if p.wasFull then s.cache.toPartials p.slab else s.cache) ∧
      Inv amount { s with cache := cache } ∧ (p.slab ∈ cache.partials ∨ p.slab ∈ cache.full) ∧
      (p.wasFull = true → p.slab ∉ cache.full) := by
    refine ⟨_, rfl, ?_⟩
    split_ifs with hfull
    · exact ⟨hi.toPartials hin fun hown => (hseen hown).1 hfull, .inl ((mem_toPartials hi.nodup).2.1.2 (.inl rfl)),
        fun _ h => ((mem_toPartials hi.nodup).2.2.1 h).1 rfl⟩
    · exact ⟨hi, hin, fun h => absurd h hfull⟩
  obtain ⟨cache, hcache, hi', hin', hleft⟩ := hfirst
  rw [← hcache] at hs
  split_ifs at hs with hempty
  · obtain ⟨cache', hloop, rfl⟩ := map_eq_some_iff.1 hs
    obtain ⟨hi'', hfull⟩ := inv_destroyLoop (hi'.toFree hin' hempty.2 ((hseen hempty.2).2 hempty.1)) hloop
    exact hi''.done fun h => ((mem_toFree hi'.nodup).2.2.1 (hfull _ h)).1 rfl
  · cases hs
    refine hi'.done fun hfull => ?_
    rcases hi.pending p hp with hwas | hnow
    · exact hleft hwas hfull
    · exact hempty ⟨hnow, (hi'.full _ hfull).1⟩

theorem inv_free {i : Nat} (hfits : amount < 2 ^ 16) (hi : Inv amount s) (hlive : i ∈ s.live a) :
    Inv amount (cache_free amount s a i) := by
  have hin : a ∈ s.cache.partials ∨ a ∈ s.cache.full := by
    by_contra hout
    have hnone : s.live a = ∅ := by
      by_cases hfree : a ∈ s.cache.free
      · exact (hi.right.free a hfree).1
      · exact (hi.gone a fun h => (mem_slabs.1 h).elim hfree hout).1
    rw [hnone] at hlive
    cases hlive
  obtain ⟨hok, hcount⟩ := (hi.slab a (mem_slabs.2 (.inr hin))).free hfits hlive
  have hpos : (cache_slab_free (s.slab a) i).freeCount ≠ 0 := by
    intro h
    rw [h] at hcount
    cases hcount
  have hkept : ∀ q ∈ s.pending, q ∈ (cache_free amount s a i).pending := by
    intro q hq
    simp only [cache_free]
    split_ifs
    · exact mem_append_left _ hq
    · exact hq
  have hnoted : Inv amount { s with pending := (cache_free amount s a i).pending } := by
    refine { hi with full := fun x hx => ⟨(hi.full x hx).1, (hi.full x hx).2.imp_right ?_⟩, pending := ?_ }
    · rintro ⟨q, hq, hqx⟩
      exact ⟨q, hkept q hq, hqx⟩
    · intro q hq
      simp only [cache_free] at hq
      split_ifs at hq with hnote
      · rcases mem_append.1 hq with hq | hq
        · exact hi.pending q hq
        · rw [mem_singleton.1 hq]
          simpa using hnote
      · exact hi.pending q hq
  refine hnoted.setSlab hin hok rfl (fun _ _ => hpos) (fun hfull => .inr ?_) (fun _ _ => hpos)
  -- The first to free an object of a full slab takes note of it.
  rcases (hi.full a hfull).2 with hzero | ⟨q, hq, hqa⟩
  · refine ⟨⟨a, true, decide ((cache_slab_free (s.slab a) i).freeCount.toNat = amount)⟩, ?_, rfl⟩
    simp [cache_free, hzero]
  · exact ⟨q, hkept q hq, hqa⟩

/-! ## `cache_alloc` -/

variable [DecidableEq C]

omit [DecidableEq A] in
theorem Inv.goto (hi : Inv amount s) {q : Place A} (hretry : ∀ a, q = .retry a → s.cache.active c = some a)
    (hpicked : ∀ a, q = .picked a → s.cache.active c = some a ∧ (s.slab a).freeCount ≠ 0)
    (hserved : ∀ failed, q = .returned none failed → failed = true) : Inv amount (s.goto c q) := by
  refine { hi with retry := ?_, picked := ?_, served := ?_ }
  · intro d x h
    rcases update_cases h with ⟨rfl, hq⟩ | ⟨-, hold⟩
    · exact hretry x hq
    · exact hi.retry d x hold
  · intro d x h
    rcases update_cases h with ⟨rfl, hq⟩ | ⟨-, hold⟩
    · exact hpicked x hq
    · exact hi.picked d x hold
  · intro d failed h
    rcases update_cases h with ⟨rfl, hq⟩ | ⟨-, hold⟩
    · exact hserved failed hq
    · exact hi.served d failed hold

theorem Inv.give (hi : Inv amount s) {i : Nat} {slab : cache_slab_t C} (hactive : s.cache.active c = some a)
    (hs : cache_slab_alloc (s.slab a) = some (i, slab)) : Inv amount (s.give c a i slab) := by
  obtain ⟨hmem, hown⟩ := hi.active c a hactive
  obtain ⟨hok, hown'⟩ := (hi.slab a (mem_slabs.2 (.inr (.inl hmem)))).alloc hs
  have hi' : Inv amount (s.goto c (.returned (some (a, i)) false)) := hi.goto nofun nofun nofun
  refine hi'.setSlab (.inl hmem) hok hown' (fun _ hnone => ?_) (fun hfull => absurd hfull ((apart hi.nodup).2.2 hmem))
    fun d hd => ?_
  · rw [hown', hown] at hnone
    cases hnone
  · -- No other CPU has picked the slab.
    have hdc : d = c := by
      have := (hi'.active d a (hi'.picked d a hd).1).2
      rw [show ((s.goto c (.returned (some (a, i)) false)).slab a).owner = some c from hown] at this
      exact (some.inj this).symm
    rw [hdc, show (s.goto c (.returned (some (a, i)) false)).place c = _ from update_self ..] at hd
    cases hd

/-- A step in which a slab gets or loses its owner, and nothing is said of other slabs
and CPUs. -/
structure Touched (s s' : System C A) (c : C) (a : A) : Prop where
  slab : ∀ x ≠ a, s'.slab x = s.slab x
  live : s'.live = s.live
  pending : s'.pending = s.pending
  active : ∀ d ≠ c, s'.cache.active d = s.cache.active d
  place : ∀ d ≠ c, s'.place d = s.place d
  lists : ∀ x ≠ a, (x ∈ s'.cache.free ↔ x ∈ s.cache.free) ∧ (x ∈ s'.cache.partials ↔ x ∈ s.cache.partials) ∧
    (x ∈ s'.cache.full ↔ x ∈ s.cache.full)
  /-- The CPU and the slab were each other's, or neither was anyone's. -/
  pair : ∀ d x, s.cache.active d = some x → (d = c ↔ x = a)

omit [DecidableEq A] [DecidableEq C] in
theorem Inv.touched (hi : Inv amount s) (ht : Touched s s' c a) (hnodup : s'.cache.slabs.Nodup)
    (hcount : s'.cache.freeCount = s'.cache.free.length) (hin : a ∈ s'.cache.slabs) (hfree : a ∉ s'.cache.free)
    (hok : (s'.slab a).Ok amount (s'.live a)) (hpartials : a ∈ s'.cache.partials → (s'.slab a).owner ≠ none)
    (hfull : a ∈ s'.cache.full → (s'.slab a).owner = none ∧ (s'.slab a).freeCount = 0)
    (hactive : ∀ x, s'.cache.active c = some x → x = a ∧ a ∈ s'.cache.partials ∧ (s'.slab a).owner = some c)
    (howner : ∀ d, (s'.slab a).owner = some d → d = c ∧ s'.cache.active c = some a)
    (hplace : s'.place c = .outside ∨
      s'.place c = .picked a ∧ s'.cache.active c = some a ∧ (s'.slab a).freeCount ≠ 0) : Inv amount s' := by
  have hslabs : ∀ x ≠ a, (x ∈ s'.cache.slabs ↔ x ∈ s.cache.slabs) := by
    intro x hx
    rw [mem_slabs, mem_slabs, (ht.lists x hx).1, (ht.lists x hx).2.1, (ht.lists x hx).2.2]
  have hother : ∀ d q, s'.place d = q → q ≠ .outside → (∀ x, q ≠ .picked x) → d ≠ c := by
    rintro d q hq hout hpick rfl
    rcases hplace with h | ⟨h, -⟩
    · exact hout (hq.symm.trans h)
    · exact hpick a (hq.symm.trans h)
  constructor
  · exact hnodup
  · exact hcount
  · intro x hx
    by_cases hxa : x = a
    · exact hxa ▸ hok
    · rw [ht.slab x hxa, ht.live]
      exact hi.slab x ((hslabs x hxa).1 hx)
  · intro x hx
    have hxa : x ≠ a := fun he => hx (he ▸ hin)
    rw [Unused, ht.slab x hxa, ht.live]
    exact hi.gone x fun h => hx ((hslabs x hxa).2 h)
  · intro x hx
    have hxa : x ≠ a := fun he => hfree (he ▸ hx)
    rw [ht.slab x hxa]
    exact hi.free x ((ht.lists x hxa).1.1 hx)
  · intro x hx hx'
    have hxa : x ≠ a := by
      rintro rfl
      exact hpartials hx hx'
    rw [ht.slab x hxa] at hx' ⊢
    exact hi.partials x ((ht.lists x hxa).2.1.1 hx) hx'
  · intro x hx
    by_cases hxa : x = a
    · subst hxa
      exact ⟨(hfull hx).1, .inl (hfull hx).2⟩
    · rw [ht.slab x hxa, ht.pending]
      exact hi.full x ((ht.lists x hxa).2.2.1 hx)
  · rw [ht.pending]
    exact hi.pending
  · intro d x hx
    by_cases hd : d = c
    · subst hd
      obtain ⟨rfl, hmem, hown⟩ := hactive x hx
      exact ⟨hmem, hown⟩
    · rw [ht.active d hd] at hx
      have hxa : x ≠ a := fun he => hd ((ht.pair d x hx).2 he)
      rw [ht.slab x hxa, (ht.lists x hxa).2.1]
      exact hi.active d x hx
  · intro x d hx
    by_cases hxa : x = a
    · subst hxa
      obtain ⟨rfl, h⟩ := howner d hx
      exact h
    · rw [ht.slab x hxa] at hx
      have hact := hi.owner x d hx
      rw [ht.active d fun he => hxa ((ht.pair d x hact).1 he)]
      exact hact
  · intro d x hx
    have hd := hother d _ hx nofun nofun
    rw [ht.place d hd] at hx
    rw [ht.active d hd]
    exact hi.retry d x hx
  · intro d x hx
    by_cases hd : d = c
    · subst hd
      rcases hplace with h | ⟨h, hact, hpos⟩
      · rw [h] at hx
        cases hx
      · rw [h] at hx
        cases hx
        exact ⟨hact, hpos⟩
    · rw [ht.place d hd] at hx
      obtain ⟨hact, hpos⟩ := hi.picked d x hx
      rw [ht.active d hd, ht.slab x fun he => hd ((ht.pair d x hact).2 he)]
      exact ⟨hact, hpos⟩
  · intro d failed hx
    have hd := hother d _ hx nofun nofun
    rw [ht.place d hd] at hx
    exact hi.served d failed hx

/-- A slab with a free object and no owner becomes the active slab of a CPU that has
none. -/
theorem inv_claim (hi : Inv amount s) {n : Nat} (hc : s.cache.active c = none) (hown : (s.slab a).owner = none)
    (hfull : a ∉ s.cache.full) (hok : (s.slab a).Ok amount (s.live a)) (hpos : (s.slab a).freeCount ≠ 0)
    (hn : n = (s.cache.free.erase a).length) :
    Inv amount (claim { s with cache := { s.cache with freeCount := n } } c a) := by
  have hlists := fun x => mem_toPartials (a := a) (x := x) hi.nodup
  have hslab : (claim { s with cache := { s.cache with freeCount := n } } c a).slab a =
      { s.slab a with owner := some c } := update_self ..
  have hactive : (claim { s with cache := { s.cache with freeCount := n } } c a).cache.active c = some a :=
    update_self ..
  have htouched : Touched s (claim { s with cache := { s.cache with freeCount := n } } c a) c a := by
    refine ⟨fun x hx => update_of_ne hx .., rfl, rfl, fun d hd => update_of_ne hd ..,
      fun d hd => update_of_ne hd .., fun x hx => ⟨?_, ?_, ?_⟩, fun d x hd => ⟨?_, ?_⟩⟩
    · exact (hlists x).1.trans (and_iff_right hx)
    · exact (hlists x).2.1.trans (or_iff_right hx)
    · exact (hlists x).2.2.trans (and_iff_right hx)
    · rintro rfl
      rw [hc] at hd
      cases hd
    · rintro rfl
      have := (hi.active d x hd).2
      rw [hown] at this
      cases this
  refine hi.touched htouched (nodup_move hi.nodup (perm_toPartials _ a)) hn
    ((mem_move hi.nodup (perm_toPartials _ a)).2 (.inl rfl)) (fun h => ((hlists a).1.1 h).1 rfl) ?_ ?_
    (fun h => absurd rfl ((hlists a).2.2.1 h).1) ?_ ?_ (.inr ⟨update_self .., hactive, ?_⟩)
  · rw [hslab]
    exact ⟨hok.nodup, hok.mem, hok.lt⟩
  · rw [hslab]
    nofun
  · intro x hx
    rw [hactive] at hx
    rw [hslab]
    exact ⟨(some.inj hx).symm, (hlists a).2.1.2 (.inl rfl), rfl⟩
  · intro d hd
    rw [hslab] at hd
    exact ⟨(some.inj hd).symm, hactive⟩
  · rw [hslab]
    exact hpos

/-- A CPU gives up its active slab, which has no free object. -/
theorem inv_retire (hi : Inv amount s) (hc : s.cache.active c = some a) (hzero : (s.slab a).freeCount = 0) :
    Inv amount ((retire s c a).goto c .outside) := by
  obtain ⟨hmem, hown⟩ := hi.active c a hc
  have hin : a ∈ s.cache.slabs := mem_slabs.2 (.inr (.inl hmem))
  have hlists := fun x => mem_toFull (a := a) (x := x) hi.nodup
  have hslab : ((retire s c a).goto c .outside).slab a = { s.slab a with owner := none } := update_self ..
  have hactive : ((retire s c a).goto c .outside).cache.active c = none := update_self ..
  have htouched : Touched s ((retire s c a).goto c .outside) c a := by
    refine ⟨fun x hx => update_of_ne hx .., rfl, rfl, fun d hd => update_of_ne hd ..,
      fun d hd => update_of_ne hd .., fun x hx => ⟨?_, ?_, ?_⟩, fun d x hd => ⟨?_, ?_⟩⟩
    · exact (hlists x).1.trans (and_iff_right hx)
    · exact (hlists x).2.1.trans (and_iff_right hx)
    · exact (hlists x).2.2.trans (or_iff_right hx)
    · rintro rfl
      exact some.inj (hd.symm.trans hc)
    · rintro rfl
      exact some.inj ((hi.active d x hd).2.symm.trans hown)
  refine hi.touched htouched (nodup_move hi.nodup (perm_toFull _ a)) ?_
    ((mem_move hi.nodup (perm_toFull _ a)).2 (.inl rfl)) (fun h => ((hlists a).1.1 h).1 rfl) ?_
    (fun h => absurd rfl ((hlists a).2.1.1 h).1) (fun _ => ?_) ?_ ?_ (.inl (update_self ..))
  · show s.cache.freeCount = (s.cache.free.erase a).length
    rw [erase_of_not_mem fun h => (apart hi.nodup).1 h hmem]
    exact hi.freeCount
  · rw [hslab]
    exact ⟨(hi.slab a hin).nodup, (hi.slab a hin).mem, (hi.slab a hin).lt⟩
  · rw [hslab]
    exact ⟨rfl, hzero⟩
  · intro x hx
    rw [hactive] at hx
    cases hx
  · intro d hd
    rw [hslab] at hd
    cases hd

/-- Where the CPU was does not matter from the label on. -/
theorem allocate_goto (s : System C A) (c : C) (q : Place A) (new : Option A) :
    allocate amount (s.goto c q) c new = allocate amount s c new := by
  simp [allocate, claim, System.goto, System.setOwner, System.setActive]

omit [DecidableEq C] in
theorem Inv.setNew (hi : Inv amount s) (hin : a ∉ s.cache.slabs) :
    Inv amount { s with slab := update s.slab a (cache_slab_new amount) } := by
  have hne : ∀ x ∈ s.cache.slabs, update s.slab a (cache_slab_new amount) x = s.slab x := by
    intro x hx
    have hxa : x ≠ a := fun he => hin (he ▸ hx)
    exact update_of_ne hxa ..
  have hpartials : ∀ x ∈ s.cache.partials, x ∈ s.cache.slabs := fun x hx => mem_slabs.2 (.inr (.inl hx))
  refine { hi with
    slab := fun x hx => ?_
    gone := fun x hx => ⟨(hi.gone x hx).1, ?_⟩
    free := fun x hx => ?_
    partials := fun x hx => ?_
    full := fun x hx => ?_
    active := fun d x hx => ?_
    owner := fun x d hx => ?_
    picked := fun d x hx => ?_ }
  · simp only [hne x hx]
    exact hi.slab x hx
  · by_cases hxa : x = a
    · simp [hxa, cache_slab_new]
    · simpa [hxa] using (hi.gone x hx).2
  · simp only [hne x (mem_slabs.2 (.inl hx))]
    exact hi.free x hx
  · simp only [hne x (hpartials x hx)]
    exact hi.partials x hx
  · simp only [hne x (mem_slabs.2 (.inr (.inr hx)))]
    exact hi.full x hx
  · simp only [hne x (hpartials x (hi.active d x hx).1)]
    exact hi.active d x hx
  · by_cases hxa : x = a
    · simp [hxa, cache_slab_new] at hx
    · simp only [update_of_ne hxa] at hx
      exact hi.owner x d hx
  · obtain ⟨hact, hpos⟩ := hi.picked d x hx
    simp only [hne x (hpartials x (hi.active d x hact).1)]
    exact ⟨hact, hpos⟩

section
variable {new : Option A} (hamount : 0 < amount) (hfits : amount < 2 ^ 16) (hi : Inv amount s)
include hamount hfits hi

theorem inv_allocate (hc : s.cache.active c = none) (hs : allocate amount s c new = some s') : Inv amount s' := by
  have hne : ∀ x, (s.slab x).freeCount.toNat = amount → (s.slab x).freeCount ≠ 0 := by
    intro x hx h
    rw [h] at hx
    exact hamount.ne hx
  unfold allocate at hs
  split at hs
  case h_1 a hfind =>
    have hmem := mem_of_find?_eq_some hfind
    have hown : (s.slab a).owner = none := by simpa using find?_some hfind
    have hin : a ∈ s.cache.slabs := mem_slabs.2 (.inr (.inl hmem))
    cases hs
    refine inv_claim hi hc hown ((apart hi.nodup).2.2 hmem) (hi.slab a hin) (hi.partials a hmem hown) ?_
    rw [erase_of_not_mem fun h => (apart hi.nodup).1 h hmem]
    exact hi.freeCount
  case h_2 =>
    split at hs
    case h_1 a rest hfree =>
      have hmem : a ∈ s.cache.free := by simp [hfree]
      have hin : a ∈ s.cache.slabs := mem_slabs.2 (.inl hmem)
      cases hs
      refine inv_claim hi hc (hi.free a hmem).1 ((apart hi.nodup).2.1 hmem) (hi.slab a hin)
        (hne a (hi.free a hmem).2) ?_
      rw [hi.freeCount, hfree]
      simp
    case h_2 hfree =>
      cases new with
      | none =>
        cases hs
        exact hi.goto nofun nofun (by simp)
      | some a =>
        simp only at hs
        split_ifs at hs with hin
        cases hs
        have hnotFree : a ∉ s.cache.free := fun h => hin (mem_slabs.2 (.inl h))
        have hnotFull : a ∉ s.cache.full := fun h => hin (mem_slabs.2 (.inr (.inr h)))
        refine inv_claim (hi.setNew hin) hc ?_ hnotFull ?_ ?_ ?_
        · simp [cache_slab_new]
        · simp only [update_self, (hi.gone a hin).1]
          exact ok_new hfits
        · have hmod : amount % 2 ^ 16 ≠ 0 := by
            rw [Nat.mod_eq_of_lt hfits]
            omega
          simp only [update_self, cache_slab_new]
          intro h
          rw [← BitVec.toNat_inj, BitVec.toNat_ofNat] at h
          exact hmod h
        · rw [erase_of_not_mem hnotFree]
          exact hi.freeCount

theorem inv_alloc (hs : cache_alloc amount s c new = some s') : Inv amount s' := by
  -- A slab with a free object gives one.
  have hreturn : ∀ a, s.cache.active c = some a → (s.slab a).freeCount ≠ 0 → Inv amount (returnObject s c a) := by
    intro a hc hpos
    have halloc : cache_slab_alloc (s.slab a) = some _ := if_neg hpos
    rw [returnObject, halloc]
    exact hi.give hc halloc
  unfold cache_alloc at hs
  cases hp : s.place c <;> simp only [hp] at hs
  case outside | returned =>
    cases hc : s.cache.active c with
    | none =>
      simp only [hc] at hs
      exact inv_allocate hamount hfits hi hc hs
    | some a =>
      simp only [hc] at hs
      cases halloc : cache_slab_alloc (s.slab a) with
      | none =>
        simp only [halloc] at hs
        cases hs
        exact hi.goto (by simp [hc]) (by rintro _ ⟨⟩) (by rintro _ ⟨⟩)
      | some pair =>
        simp only [halloc] at hs
        cases hs
        exact hi.give hc halloc
  case retry a =>
    split_ifs at hs with hpos
    · cases hs
      exact hreturn a (hi.retry c a hp) ((BitVec.pos_iff_ne_zero _).1 hpos)
    · have hzero : (s.slab a).freeCount = 0 := by
        by_contra h
        exact hpos ((BitVec.pos_iff_ne_zero _).2 h)
      rw [← allocate_goto (retire s c a) c .outside] at hs
      exact inv_allocate hamount hfits (inv_retire hi (hi.retry c a hp) hzero) (update_self ..) hs
  case picked a =>
    cases hs
    obtain ⟨hc, hpos⟩ := hi.picked c a hp
    exact hreturn a hc hpos

/-! ## Every run -/

theorem inv_step {action : Action C A} (hfresh : Fresh amount s action) (hs : step amount s action = some s') :
    Inv amount s' := by
  cases action with
  | alloc c new => exact inv_alloc hamount hfits hi hs
  | free a i =>
    simp only [step] at hs
    split_ifs at hs with hlive
    cases hs
    exact inv_free hfits hi hlive
  | freeLists p =>
    simp only [step] at hs
    split_ifs at hs with hp
    exact inv_freeLists hi hp hfresh hs

end

/-- For slabs of fewer than `2 ^ 16` objects, the discipline holds in every state of every
run in which each `cache_free` acts on what is still the case. -/
theorem cache_right (hamount : 0 < amount) (hfits : amount < 2 ^ 16) (as : List (Action C A))
    (hfresh : Along (step amount) (Fresh amount) (init : System C A) as) :
    Always (step amount) (Right amount) (init : System C A) as :=
  (hfresh.always (fun _ _ _ hi ha hs => inv_step hamount hfits hi ha hs) inv_init).mono fun _ hi => hi.right

/-- A slab of three objects fills up, is freed by three calls one after the other, and
ends on `free`. -/
def emptied : List (Action Bool Nat) :=
  [.alloc true (some 7), .alloc true none, .alloc true none, .alloc true none, .alloc true none,
    .alloc true (some 8), .free 7 0, .freeLists ⟨7, true, false⟩, .free 7 1, .free 7 2,
    .freeLists ⟨7, false, true⟩, .alloc false none]

theorem emptied_right : Always (step 3) (Right 3) (init : System Bool Nat) emptied :=
  cache_right (by decide) (by decide) emptied (by decide +kernel)

/-- A slab is on one list, its free objects are those that nobody has, and it has an owner
exactly if it is the active one of that CPU. -/
structure SlabsRight (amount : Nat) (s : System C A) : Prop where
  nodup : s.cache.slabs.Nodup
  objects : ∀ a ∈ s.cache.slabs, (s.slab a).Ok amount (s.live a)
  owner : ∀ a c, (s.slab a).owner = some c ↔ s.cache.active c = some a
  active : ∀ c a, s.cache.active c = some a → a ∈ s.cache.partials

theorem slabs_right (hamount : 0 < amount) (hfits : amount < 2 ^ 16) (as : List (Action C A))
    (hfresh : Along (step amount) (Fresh amount) (init : System C A) as) :
    Always (step amount) (SlabsRight amount) (init : System C A) as :=
  (hfresh.always (fun _ _ _ hi ha hs => inv_step hamount hfits hi ha hs) inv_init).mono fun _ hi =>
    ⟨hi.nodup, hi.slab, fun a c => ⟨hi.owner a c, fun hc => (hi.active c a hc).2⟩, fun c a hc => (hi.active c a hc).1⟩

theorem emptied_slabs : Always (step 3) (SlabsRight 3) (init : System Bool Nat) emptied :=
  slabs_right (by decide) (by decide) emptied (by decide +kernel)

/-- A slab of one object. It is freed, handed out again and retired before the
`cache_free` goes on. -/
def overtaken : List (Action Bool Nat) :=
  [.alloc true (some 7), .alloc true none, .free 7 0, .alloc true none, .alloc true none, .alloc true (some 8),
    .freeLists ⟨7, true, true⟩]

/-- The slab is then on `free` with its object handed out. -/
theorem overtaken_not_right : ¬ Always (step 1) (Right 1) (init : System Bool Nat) overtaken := by
  refine not_always (fun s => s.cache.free = [7] ∧ s.live 7 = {0}) (by decide +kernel) ?_
  rintro s ⟨hfree, hlive⟩ h
  have hunused := h.free 7 (by simp [hfree])
  rw [Unused, hlive] at hunused
  exact absurd hunused.1 (by decide)

end Patchwork.Cache
