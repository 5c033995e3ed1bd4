import Patchwork.Utils.WeakPtr
/-!
# Weak pointers over whole runs

When no CPU reads or writes a weak pointer that has been cleared or whose callback has
run: exactly if the walk of `ref_dec` comes upon no callback and no weak pointer is
cleared while another CPU is in a call about it.
-/

namespace Patchwork.WeakPtr

open Option Function Lib

variable {T W : Type} {s s' : System T W} {t u : T} {wp : W} {p : Place W}

/-! ## Memory that is gone -/

/-- No callback has run, and no call is about a weak pointer that has been cleared. -/
structure Calm (s : System T W) : Prop where
  uncalled : ∀ wp, s.called wp = 0
  apart : ∀ t wp, s.cleared wp = true → ¬ At s wp (s.place t)

/-- Neighbours in the list are written only while the walk has not started. -/
theorem Calm.untouched (h : Inv s) (hc : Calm s) : Untouched s := by
  intro t wp hgone htouch
  have hcleared : s.cleared wp = true := by
    rcases hgone with hcl | hcalled
    · exact hcl
    · rw [hc.uncalled wp] at hcalled
      exact absurd hcalled (Nat.lt_irrefl 0)
  rcases htouch with hat | ⟨wp', hmem, hlock, hcall⟩
  · exact hc.apart t wp hcleared hat
  · have hahead : Ahead s 0 := by
      rcases hcall with hpush | ⟨-, href⟩
      · exact h.ahead (List.ne_nil_of_mem (h.placeOk hpush).2.1)
      · rcases h.idle hlock with hahead | hover
        · exact hahead
        · rw [hover wp'] at href
          cases href
    obtain ⟨j, hj⟩ := List.mem_iff_getElem?.1 hmem
    have href := (hahead j wp (Nat.zero_le j) hj).1
    rw [(h.cleared wp hcleared).2] at href
    cases href

/-- Where the walk has not been, nothing is cleared. -/
theorem Inv.not_at_walk {i : Nat} (h : Inv s) (hpc : s.place t = .walk i) (hc : s.cleared wp = true) :
    s.weakRefs[i]? ≠ some wp := by
  intro hi
  obtain ⟨-, -, hahead, -⟩ := h.placeOk hpc
  have href := (hahead i wp (Nat.le_refl i) hi).1
  rw [(h.cleared wp hc).2] at href
  cases href

theorem Inv.not_at_set {wp' : W} (h : Inv s) (hset : s.stage wp' = .setting t) (hc : s.cleared wp = true) :
    wp' ≠ wp := by
  intro heq
  rw [heq, (h.cleared wp hc).1] at hset
  cases hset

theorem Calm.counts {n : Nat} {l : List T} (hc : Calm s) : Calm { s with count := n, strong := l } :=
  ⟨hc.uncalled, hc.apart⟩

/-- While nobody has the lock of the object, which pointer a call is about does not depend on the list. -/
theorem at_of_unlocked {l : List W} (h : Inv s) (hlock : s.refLock = none) :
    At { s with weakRefs := l } wp (s.place u) ↔ At s wp (s.place u) := by
  cases hpc : s.place u with
  | walk | next => exact nomatch hlock.symm.trans (h.placeOk hpc).2.1
  | _ => rfl

variable [DecidableEq T]

/-- A step of `t` that clears nothing. -/
theorem Calm.goto (hc : Calm s) (t : T) (hlist : s'.weakRefs = s.weakRefs) (hcleared : s'.cleared = s.cleared)
    (hcalled : ∀ wp, s'.called wp = 0) (hplace : s'.place = update s.place t p)
    (hp : ∀ wp, s.cleared wp = true → ¬ At s wp p) : Calm s' := by
  have hat : ∀ wp q, At s' wp q → At s wp q := by
    intro wp q hq
    cases q with
    | walk i | next i => exact (congrArg (fun l => l[i]?) hlist).symm.trans hq
    | _ => exact hq
  refine ⟨hcalled, fun u wp hcl hu => ?_⟩
  rw [hcleared] at hcl
  rw [hplace] at hu
  by_cases hut : u = t
  · subst hut
    rw [update_self] at hu
    exact hp wp hcl (hat wp p hu)
  · rw [update_of_ne hut] at hu
    exact hc.apart u wp hcl (hat wp _ hu)

theorem Calm.last {n : Nat} {l : List T} (hc : Calm s) :
    Calm { s.goto t .decLock with count := n, strong := l, zeroBy := some t } :=
  hc.goto t rfl rfl hc.uncalled rfl fun _ _ => id

variable [DecidableEq W]

theorem Calm.leave {o : Option W} (hc : Calm s) : Calm (s.leave t o) := by
  cases o with
  | none | some => exact hc.goto t rfl rfl hc.uncalled rfl fun _ _ => id

/-- `weak_ptr_clear` of `wp` returns. -/
theorem Calm.clear (hc : Calm s) (happart : ∀ u, u ≠ t → ¬ At s wp (s.place u)) : Calm (s.clear t wp) := by
  refine ⟨hc.uncalled, fun u wp' hcl hat => ?_⟩
  change At s wp' ((s.goto t .out).place u) at hat
  by_cases hut : u = t
  · rw [hut, goto_self] at hat
    exact hat
  · rw [goto_of_ne hut] at hat
    by_cases hwp : wp' = wp
    · subst hwp
      exact happart u hut hat
    · change update s.cleared wp true wp' = true at hcl
      rw [update_of_ne hwp] at hcl
      exact hc.apart u wp' hcl hat

theorem calm_advance (h : Inv s) (h' : Inv s') (hc : Calm s) (hq : Quiet s (.go t)) (hs : advance s t = some s') :
    Calm s' := by
  cases hpc : s.place t <;> simp only [advance, hpc, reduceCtorEq, ite_none_right_eq_some] at hs
  case tryLoad o =>
    cases hs
    refine hc.goto t rfl rfl hc.uncalled rfl fun wp hcl hat => hc.apart t wp hcl ?_
    rw [hpc]
    exact hat
  case tryCas o count =>
    split at hs
    · cases hs
      exact hc.leave
    · split at hs
      · cases hs
        have htake : Calm (s.take t) := hc.counts
        exact htake.leave
      · cases hs
        refine hc.goto t rfl rfl hc.uncalled rfl fun wp hcl hat => hc.apart t wp hcl ?_
        rw [hpc]
        exact hat
  case decLock =>
    obtain ⟨-, heq⟩ := hs
    cases heq
    exact hc.goto t rfl rfl hc.uncalled rfl fun wp hcl => h'.not_at_walk (t := t) goto_self hcl
  case walk i =>
    cases hi : s.weakRefs[i]? with
    | none =>
      simp only [hi] at hs
      cases hs
      exact hc.goto t rfl rfl hc.uncalled rfl fun _ _ => id
    | some wp =>
      simp only [hi, ite_none_right_eq_some] at hs
      obtain ⟨hlock, heq⟩ := hs
      cases heq
      refine hc.goto t rfl rfl (fun wp' => ?_) rfl fun wp' hcl => h.not_at_walk hpc hcl
      change update s.called wp _ wp' = 0
      rw [hq.1 i wp hpc hi hlock, update_apply]
      split
      · exact hc.uncalled wp
      · exact hc.uncalled wp'
  case next i =>
    cases hs
    exact hc.goto t rfl rfl hc.uncalled rfl fun wp hcl => h'.not_at_walk (t := t) goto_self hcl
  case cleanup =>
    cases hs
    exact hc.goto t rfl rfl hc.uncalled rfl fun _ _ => id
  case setInit wp callback =>
    cases hs
    exact hc.goto t rfl rfl hc.uncalled rfl fun _ hcl => h.not_at_set (h.placeOk hpc).1 hcl
  case setPush wp =>
    obtain ⟨hlock, heq⟩ := hs
    cases heq
    have hlist : Calm { s with weakRefs := s.weakRefs ++ [wp] } :=
      ⟨hc.uncalled, fun u wp' hcl hat => hc.apart u wp' hcl ((at_of_unlocked h hlock).1 hat)⟩
    exact hlist.goto t rfl rfl hc.uncalled rfl fun _ _ => id
  case getLock wp =>
    obtain ⟨-, hs⟩ := hs
    split at hs
    · cases hs
      refine hc.goto t rfl rfl hc.uncalled rfl fun wp' hcl hat => hc.apart t wp' hcl ?_
      rw [hpc]
      exact Option.some.inj hat
    · cases hs
      exact hc.goto t rfl rfl hc.uncalled rfl fun _ _ => id
  case clearLock wp =>
    obtain ⟨hfree, hs⟩ := hs
    by_cases href : s.ref wp = true
    · rw [if_pos href] at hs
      by_cases hlock : s.refLock = none
      · rw [if_pos hlock] at hs
        cases hs
        have hlist : Calm (unlink s wp) :=
          ⟨hc.uncalled, fun u wp' hcl hat => hc.apart u wp' hcl ((at_of_unlocked h hlock).1 hat)⟩
        refine hlist.clear fun u hu hat => ?_
        exact hq.2 wp hpc hfree (.inr hlock) u hu ((at_of_unlocked h hlock).1 hat)
      · rw [if_neg hlock] at hs
        cases hs
        exact hc
    · rw [if_neg href] at hs
      cases hs
      exact hc.clear fun u hu => hq.2 wp hpc hfree (.inl (Bool.eq_false_iff.2 href)) u hu

theorem calm_step {a : Action T W} (h : Inv s) (h' : Inv s') (hc : Calm s) (hq : Quiet s a)
    (hs : step s a = some s') : Calm s' := by
  cases a <;> simp only [step, ite_none_right_eq_some] at hs
  case ref_inc t | pass t u =>
    rw [← Option.some.inj hs.2]
    exact hc.counts
  case ref_inc_try t =>
    rw [← Option.some.inj hs.2]
    exact hc.goto t rfl rfl hc.uncalled rfl (by rintro _ _ ⟨⟩)
  case ref_dec t =>
    rw [← Option.some.inj hs.2]
    unfold ref_dec
    split
    · exact hc.counts
    · exact hc.last
  case weak_ptr_set t wp callback =>
    obtain ⟨-, heq⟩ := hs
    cases heq
    refine hc.goto t rfl rfl hc.uncalled rfl fun wp' hcl => ?_
    exact h'.not_at_set (t := t) (update_self ..) hcl
  case weak_ptr_get t wp | weak_ptr_clear t wp =>
    obtain ⟨⟨-, -, hnot⟩, heq⟩ := hs
    cases heq
    refine hc.goto t rfl rfl hc.uncalled rfl fun wp' hcl hat => ?_
    rw [← show wp = wp' from hat, hnot] at hcl
    cases hcl
  case go t => exact calm_advance h h' hc hq hs
  case spurious t =>
    split at hs
    · rename_i o count hpc
      simp only [ite_none_left_eq_some] at hs
      rw [← Option.some.inj hs.2]
      refine hc.goto t rfl rfl hc.uncalled rfl fun wp hcl hat => hc.apart t wp hcl ?_
      rw [hpc]
      exact hat
    · cases hs

/-! ## Runs -/

/-- A callback that runs, and a pointer that is cleared under a call, are read again. -/
theorem loud_step {a : Action T W} (h : Inv s) (hq : ¬ Quiet s a) : ∃ s', step s a = some s' ∧ ¬ Untouched s' := by
  cases a with
  | go t =>
    rw [Quiet, not_and_or] at hq
    rcases hq with hcall | hclear
    · push Not at hcall
      obtain ⟨i, wp, hpc, hi, hlock, hcb⟩ := hcall
      refine ⟨(visit s wp).goto t (.next i), ?_, fun hun => ?_⟩
      · simp only [step, advance, hpc, hi, if_pos hlock]
      · refine hun t wp (.inr ?_) (.inl ?_)
        · change 0 < update s.called wp _ wp
          rw [update_self, Bool.not_eq_false _ |>.mp hcb]
          exact Nat.succ_pos _
        · rw [goto_self]
          exact hi
    · push Not at hclear
      obtain ⟨wp, hpc, hlock, hreturn, u, hu, hat⟩ := hclear
      by_cases href : s.ref wp = true
      · have hfree := hreturn.resolve_left (by rw [href]; rintro ⟨⟩)
        refine ⟨(unlink s wp).clear t wp, ?_, fun hun => hun u wp (.inl (update_self ..)) (.inl ?_)⟩
        · simp only [step, advance, hpc, if_pos hlock, if_pos href, if_pos hfree]
        · change At _ wp ((s.goto t .out).place u)
          rw [goto_of_ne hu]
          exact (at_of_unlocked h hfree).2 hat
      · refine ⟨s.clear t wp, ?_, fun hun => hun u wp (.inl (update_self ..)) (.inl ?_)⟩
        · simp only [step, advance, hpc, if_pos hlock, if_neg href]
        · change At s wp ((s.goto t .out).place u)
          rw [goto_of_ne hu]
          exact hat
  | _ => exact absurd trivial hq

/-- As long as the count does not overflow, `weak_ptr_get` hands out living objects only, and
callbacks run once and not after `weak_ptr_clear`. Weak pointers that are gone are left
alone exactly if the run is quiet. -/
theorem weak_ptrs_right (t : T) (acts : List (Action T W)) (hc : Along step Counted (init t) acts) :
    Always step Safe (init t : System T W) acts ∧
    (Always step Untouched (init t : System T W) acts ↔ Along step Quiet (init t) acts) := by
  have hinv : Always step Inv (init t : System T W) acts :=
    hc.always (fun _ _ _ hi hok hs => inv_step hi hok hs) inv_init
  refine ⟨hinv.mono fun _ hi => hi.safe, fun hun => ?_, fun hq => ?_⟩
  · refine (hinv.and hun).along_self fun s a hs hbad => ?_
    obtain ⟨s', hs', hnot⟩ := loud_step hs.1 hbad
    exact ⟨s', hs', fun h => hnot h.2⟩
  · have hcalm : Always step Calm (init t : System T W) acts :=
      hq.always_with (fun _ _ _ hi hi' hcalm hok hs => calm_step hi hi' hcalm hok hs)
        ⟨fun _ => rfl, nofun⟩ hinv
    exact (hinv.and hcalm).mono fun _ hs => hs.2.untouched hs.1

/-- CPU 0 makes an object and a weak pointer with a callback to it, and drops the object. -/
def dropped : List (Action (Fin 2) (Fin 1)) :=
  [.weak_ptr_set 0 0 true, .go 0, .go 0, .weak_ptr_get 1 0, .go 1, .go 1, .go 1, .ref_dec 1, .ref_dec 0, .go 0, .go 0]

theorem dropped_right : Along step Counted (init 0) dropped ∧ Always step Safe (init 0) dropped ∧
    (Always step Untouched (init 0) dropped ↔ Along step Quiet (init 0) dropped) :=
  ⟨by decide +kernel, weak_ptrs_right 0 dropped (by decide +kernel)⟩

/-- The callback has run, and `ref_dec` goes on in the weak pointer. -/
theorem dropped_touched : ¬ Always step Untouched (init 0) dropped := by
  refine not_always (fun s => s.called 0 = 1 ∧ s.place 0 = .next 0 ∧ s.weakRefs = [0]) (by decide +kernel) ?_
  rintro s ⟨hcalled, hpc, hlist⟩ h
  refine h 0 0 (.inr (by rw [hcalled]; exact Nat.one_pos)) (.inl ?_)
  rw [hpc]
  change s.weakRefs[0]? = some 0
  rw [hlist]
  rfl

end Patchwork.WeakPtr
