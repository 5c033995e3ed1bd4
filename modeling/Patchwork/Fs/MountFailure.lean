import Patchwork.Fs.Namespace
/-!
# Mounts that fail

`namespace_mount` and `namespace_bind` when memory runs out or a stack of mounts is full.
Each namespace that needs a new stack gets the answers of `malloc` and of `map_insert` for it.

The mount is entered into the namespace itself before it is propagated to the children, and
nothing takes it out again when that fails. So a call that fails leaves no trace exactly if
it fails in the namespace that it was made for.
-/

namespace Patchwork.Mounting

open List Vfs

/-- The answers that are left, and the references to the new mount: a namespace takes one, so their 32 bits
in the source are enough for fewer than `2 ^ 32 - 1` namespaces. -/
structure State where
  answers : List (Bool × Bool)
  refs : Nat

/-- Without a stack for the mount there are two allocations. -/
def allocates (x : namespace_t) (mount : mount_t) : Bool :=
  match mount.parent, mount.target with
  | some p, some t => (namespace_get_stack x (p, t)).isNone
  | _, _ => false

/-- The part of `namespace_add` before `propagate`. -/
def push (m : Nat) (x : namespace_t) (mount : mount_t) (r : State) : Option namespace_t × State :=
  let taken : Option namespace_t → State := fun x => if x.isSome then { r with refs := r.refs + 1 } else r
  if allocates x mount then
    match r.answers with
    | (true, true) :: answers => (x.push m mount, { taken (x.push m mount) with answers := answers })
    -- `malloc` fails, or the stack is freed after `map_insert` has failed
    | _ :: answers => (none, { r with answers := answers })
    | [] => (none, r)
  else (x.push m mount, taken (x.push m mount))

def namespace_add (s : System) (n m : Nat) (r : State) : System × State × Bool :=
  namespace_addWith (push m) m s.nfresh s r n

inductive Call where
  /-- `namespace_mount`, with what `fs->mount` returns. -/
  | mount (target : Option path_t) (root : Option Nat) (mode : mode_t)
  | bind (target : Option path_t) (source : path_t) (mode : mode_t)

def mount_new (s : System) (malloc : Bool) (source : Nat) (target : Option path_t) (mode : mode_t) : Option System :=
  if s.store.isPositive source && (target.all fun t => s.store.isPositive t.dentry) && malloc then
    some (Vfs.mount_new s source target mode)
  else none

/-- The new mount, if the call gets as far as that. -/
def Call.mount? (s : System) (malloc : Bool) : Call → Option System
  | .mount target (some root) mode => if s.store.isRoot root then mount_new s malloc root target mode else none
  | .mount _ none _ => none
  | .bind target source mode =>
    match mode_check mode (s.mount source.mount).mode with
    | .ok mode => mount_new s malloc source.dentry target mode
    | .error _ => none

/-- The namespaces and the references to the mount after the call, and whether it returns the
mount. `mount_new` makes one reference, which a call that fails drops. -/
def perform (s : System) (n : Nat) (malloc : Bool) (answers : List (Bool × Bool)) (c : Call) : System × Nat × Bool :=
  match c.mount? s malloc with
  | none => (s, 0, false)
  | some s' =>
    match namespace_add s' n s.mfresh { answers := answers, refs := 1 } with
    | (s', r, true) => (s', r.refs, true)
    | (s', r, false) => (s', r.refs - 1, false)

/-- All or nothing. -/
def Clean (s : System) (r : System × Nat × Bool) : Prop := r.2.2 = false → r.1.ns = s.ns ∧ r.2.1 = 0

/-- The namespace of the call can take the mount. -/
def Enters (s : System) (n : Nat) (malloc : Bool) (answers : List (Bool × Bool)) (c : Call) : Prop :=
  ∃ s', c.mount? s malloc = some s' ∧ (push s.mfresh (s'.ns n) (s'.mount s.mfresh) ⟨answers, 1⟩).1 ≠ none

variable {m : Nat}

theorem push_spec (m : Nat) (x : namespace_t) (mount : mount_t) (r : State) :
    (∃ r', push m x mount r = (none, r') ∧ r'.refs = r.refs) ∨
      ∃ x' r', push m x mount r = (some x', r') ∧ r'.refs = r.refs + 1 := by
  unfold push
  cases x.push m mount with
  | none =>
    left
    split_ifs
    · split <;> simp
    · simp
  | some x' =>
    split_ifs
    · split <;> simp
    · simp

/-- A namespace that has taken the mount has one more reference, if no child gives one back. -/
theorem add_cases {fuel : Nat} (hle : ∀ s r n, r.refs ≤ (namespace_addWith (push m) m fuel s r n).2.1.refs)
    (s : System) (r : State) (n : Nat) :
    ((push m (s.ns n) (s.mount m) r).1 = none ∧
      ∃ r', namespace_addWith (push m) m (fuel + 1) s r n = (s, r', false) ∧ r'.refs = r.refs) ∨
    (push m (s.ns n) (s.mount m) r).1 ≠ none ∧
      r.refs < (namespace_addWith (push m) m (fuel + 1) s r n).2.1.refs := by
  have hloop : ∀ (l : List Nat) (a : System × State × Bool), a.2.1.refs ≤ (l.foldl (fun a child =>
      if a.2.2 then namespace_addWith (push m) m fuel a.1 a.2.1 child else a) a).2.1.refs := by
    intro l
    induction l with
    | nil => exact fun a => Nat.le_refl _
    | cons child l ih =>
      intro a
      refine Nat.le_trans ?_ (ih _)
      dsimp only
      split_ifs
      · exact hle ..
      · exact Nat.le_refl _
  rw [namespace_addWith]
  rcases push_spec m (s.ns n) (s.mount m) r with ⟨r', hpush, hrefs⟩ | ⟨x', r', hpush, hrefs⟩
  all_goals rw [hpush]
  · exact .inl ⟨rfl, r', rfl, hrefs⟩
  · have hlt : r.refs < r'.refs := hrefs ▸ Nat.lt_succ_self _
    refine .inr ⟨Option.some_ne_none x', ?_⟩
    dsimp only
    split_ifs
    · exact Nat.lt_of_lt_of_le hlt (hloop _ (_, r', _))
    · exact hlt

theorem refs_le (fuel : Nat) (s : System) (r : State) (n : Nat) :
    r.refs ≤ (namespace_addWith (push m) m fuel s r n).2.1.refs := by
  induction fuel generalizing s r n with
  | zero => exact Nat.le_refl _
  | succ fuel ih =>
    rcases add_cases ih s r n with ⟨-, r', heq, hrefs⟩ | ⟨-, hlt⟩
    · rw [heq]
      exact hrefs.ge
    · exact Nat.le_of_lt hlt

theorem ns_of_mount {s s' : System} {malloc : Bool} {c : Call} (h : c.mount? s malloc = some s') : s'.ns = s.ns := by
  have hnew : ∀ {source target mode}, mount_new s malloc source target mode = some s' → s'.ns = s.ns := by
    intro source target mode hs
    rw [← Option.some.inj (Option.ite_none_right_eq_some.1 hs).2]
    rfl
  unfold Call.mount? at h
  split at h
  · exact hnew (Option.ite_none_right_eq_some.1 h).2
  · cases h
  · split at h
    · exact hnew h
    · cases h

/-- A call that fails leaves everything as it was, exactly if the namespace that it was
made for has not taken the mount. -/
theorem failed_mount_clean_iff (s : System) (n : Nat) (malloc : Bool) (answers : List (Bool × Bool)) (c : Call) :
    Clean s (perform s n malloc answers c) ↔
      ((perform s n malloc answers c).2.2 = false → ¬ Enters s n malloc answers c) := by
  refine imp_congr_right fun hfail => ?_
  rw [perform] at hfail ⊢
  cases hm : c.mount? s malloc with
  | none => simp [Enters, hm]
  | some s' =>
    have henters : Enters s n malloc answers c ↔ (push s.mfresh (s'.ns n) (s'.mount s.mfresh) ⟨answers, 1⟩).1 ≠ none := by
      simp [Enters, hm]
    simp only [hm, namespace_add] at hfail ⊢
    rw [henters, not_not]
    cases hfresh : s'.nfresh with
    | zero => simp [hfresh, namespace_addWith] at hfail
    | succ fuel =>
      rw [hfresh] at hfail
      rcases add_cases (refs_le fuel) s' ⟨answers, 1⟩ n with ⟨hnone, r', heq, hrefs⟩ | ⟨hsome, hlt⟩
      · rw [heq]
        exact iff_of_true ⟨ns_of_mount hm, by simp [hrefs]⟩ hnone
      · generalize namespace_addWith (push s.mfresh) s.mfresh (fuel + 1) s' ⟨answers, 1⟩ n = res at hfail hlt ⊢
        obtain ⟨s'', r', ok⟩ := res
        cases ok with
        | true => cases hfail
        | false => exact iff_of_false (fun h => Nat.sub_ne_zero_of_lt hlt h.2) hsome

/-- A directory that is the root of a file system. -/
def oneRoot : Store where
  dentry := fun _ => { name := [], parent := 0, vnode := some 0, superblock := 0, children := [], mountCount := 0 }
  fresh := 1
  map := [0]
  vnode := fun _ => { type := .VDIR, data := [], tmpfs := true }
  vfresh := 1
  lookup := fun _ _ => none
  parent_le := fun d => Nat.zero_le d
  map_lt := by decide

/-- A namespace with a child whose root stack is full. -/
def fullChild : System :=
  { init oneRoot with
    nfresh := 2
    ns := fun n => { root := if n = 0 then [] else range 8, mountMap := [], children := if n = 0 then [1] else [] } }

/-- The root that is mounted and propagated stays in the namespace when the child refuses it. -/
theorem fullChild_not_clean : ¬ Clean fullChild (perform fullChild 0 true [] (.mount none (some 0) MODE_PROPAGATE)) := by
  intro h
  exact absurd (h (by decide)).2 (by decide)

end Patchwork.Mounting
