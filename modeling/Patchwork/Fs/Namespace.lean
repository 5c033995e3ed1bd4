import Patchwork.Lib.Runs
import Patchwork.Lib.Fallible
import Patchwork.Fs.Dentry
/-!
# Mounts and namespaces

`mount.c` and the part of `namespace.c` that builds namespaces: `namespace_new`,
`namespace_copy`, `namespace_mount` and `namespace_bind` with their propagation to child
namespaces, and `namespace_rcu_traverse`. A mount is known by its number, which is its
id. No allocation fails.

A mount without a parent is in the root stack of a namespace, any other one in the stack
of its parent mount and its target dentry.
-/

namespace Patchwork.Vfs

open List Option Function Lib

structure mount_t where
  source : Nat
  target : Option Nat
  parent : Option Nat
  mode : mode_t
deriving DecidableEq

structure namespace_t where
  /-- The root stack, its top last. -/
  root : List Nat
  /-- The other stacks, by parent mount and target. -/
  mountMap : List ((Nat × Nat) × List Nat)
  children : List Nat
deriving DecidableEq

structure path_t where
  mount : Nat
  dentry : Nat
deriving Repr, DecidableEq

structure System where
  store : Store
  mount : Nat → mount_t
  /-- The next mount. -/
  mfresh : Nat
  ns : Nat → namespace_t
  /-- The next namespace. -/
  nfresh : Nat

def NAMESPACE_MAX_TRAVERSE : Nat := 32
def MOUNT_STACK_MAX_MOUNTS : Nat := 8

/-- One namespace without mounts. -/
def init (store : Store) : System :=
  { store := store, mfresh := 0, nfresh := 1
    mount := fun _ => { source := 0, target := none, parent := none, mode := MODE_NONE }
    ns := fun _ => { root := [], mountMap := [], children := [] } }

/-- The mounts of a namespace, in the order of its stacks. -/
def namespace_t.mounts (x : namespace_t) : List Nat := x.root ++ x.mountMap.flatMap Prod.snd

/-! ## Stacks -/

def mount_stack_push (stack : List Nat) (m : Nat) : Option (List Nat) :=
  if MOUNT_STACK_MAX_MOUNTS ≤ stack.length then none else some (stack ++ [m])

/-- The stack of the key gets the mount, or there is a new stack. -/
def stacks_push (key : Nat × Nat) (m : Nat) :
    List ((Nat × Nat) × List Nat) → Option (List ((Nat × Nat) × List Nat))
  | [] => some [(key, [m])]
  | (k, stack) :: rest =>
    if k = key then (mount_stack_push stack m).map fun stack => (k, stack) :: rest
    else (stacks_push key m rest).map fun rest => (k, stack) :: rest

def namespace_get_stack (x : namespace_t) (key : Nat × Nat) : Option (List Nat) :=
  (x.mountMap.find? fun e => e.1 == key).map Prod.snd

/-- The part of `namespace_add` before `propagate`. -/
def namespace_t.push (x : namespace_t) (m : Nat) (mount : mount_t) : Option namespace_t :=
  match mount.parent, mount.target with
  | some p, some t => (stacks_push (p, t) m x.mountMap).map fun mountMap => { x with mountMap := mountMap }
  | _, _ => (mount_stack_push x.root m).map fun root => { x with root := root }

/-- `namespace_add`, and whether it succeeds, where `enter` is the part before `propagate` and
`r` what that takes and leaves. Child namespaces are newer than their parents, so their number
bounds the depth. -/
def namespace_addWith {σ : Type} (enter : namespace_t → mount_t → σ → Option namespace_t × σ) (m : Nat) :
    Nat → System → σ → Nat → System × σ × Bool
  | 0, s, r, _ => (s, r, true)
  | fuel + 1, s, r, n =>
    match enter (s.ns n) (s.mount m) r with
    | (none, r) => (s, r, false)
    | (some x, r) =>
      let s := { s with ns := update s.ns n x }
      if has (s.mount m).mode MODE_PROPAGATE then
        x.children.foldl (fun a child => if a.2.2 then namespace_addWith enter m fuel a.1 a.2.1 child else a) (s, r, true)
      else (s, r, true)

/-- No allocation fails. -/
def namespace_add (fuel : Nat) (s : System) (n m : Nat) : System × Bool :=
  let r := namespace_addWith (fun x mount _ => (x.push m mount, ())) m fuel s () n
  (r.1, r.2.2)

/-! ## Building namespaces -/

def namespace_new (s : System) (parent : Option Nat) : System :=
  let s := match parent with
    | some p => { s with ns := update s.ns p { s.ns p with children := (s.ns p).children ++ [s.nfresh] } }
    | none => s
  { s with ns := update s.ns s.nfresh { root := [], mountMap := [], children := [] }, nfresh := s.nfresh + 1 }

def namespace_copy (s : System) (dest src : Nat) : System :=
  ((s.ns src).mounts.foldl (fun r m =>
    if r.2 && !has (s.mount m).mode MODE_PRIVATE then namespace_add s.nfresh r.1 dest m else r) (s, true)).1

/-- `mount_new` for a positive source and a positive target. -/
def mount_new (s : System) (source : Nat) (target : Option path_t) (mode : mode_t) : System :=
  { s with
    mount := update s.mount s.mfresh
      { source := source, target := target.map path_t.dentry, parent := target.map path_t.mount, mode := mode }
    mfresh := s.mfresh + 1
    store := match target with
      | some t => s.store.modify t.dentry (fun x => { x with mountCount := x.mountCount + 1 }) fun _ => rfl
      | none => s.store }

/-- `mount_new` and `namespace_add`. A mount that got into no stack is freed again. -/
def namespace_attach (s : System) (n : Nat) (target : Option path_t) (source : Nat) (mode : mode_t) : System :=
  if s.store.isPositive source && target.all fun t => s.store.isPositive t.dentry then
    let r := namespace_add s.nfresh (mount_new s source target mode) n s.mfresh
    if r.2 || (r.1.ns n).mounts.contains s.mfresh then r.1 else s
  else s

/-- `namespace_mount`, where `fs->mount` gives `root`. -/
def namespace_mount (s : System) (n : Nat) (target : Option path_t) (root : Nat) (mode : mode_t) : System :=
  namespace_attach s n target root mode

def namespace_bind (s : System) (n : Nat) (target : Option path_t) (source : path_t) (mode : mode_t) : System :=
  match mode_check mode (s.mount source.mount).mode with
  | .error _ => s
  | .ok mode => namespace_attach s n target source.dentry mode

/-- What a `path_t` is: a dentry in the tree that its mount shows. -/
def System.Valid (s : System) (p : path_t) : Prop :=
  p.mount < s.mfresh ∧ p.dentry < s.store.fresh ∧ s.store.Under (s.mount p.mount).source p.dentry

instance (s : System) (p : path_t) : Decidable (s.Valid p) := inferInstanceAs (Decidable (_ ∧ _ ∧ _))

inductive Action where
  | new (parent : Option Nat)
  | copy (dest src : Nat)
  | mount (n : Nat) (target : Option path_t) (root : Nat) (mode : mode_t)
  | bind (n : Nat) (target : Option path_t) (source : path_t) (mode : mode_t)
  /-- A name is looked up in a directory. -/
  | lookup (d : Nat) (name : name_t)

def step (s : System) : Action → Option System
  | .new parent => if ∀ p ∈ parent, p < s.nfresh then some (namespace_new s parent) else none
  | .copy dest src => some (namespace_copy s dest src)
  | .mount n target root mode =>
    if (∀ t ∈ target, s.Valid t) ∧ root < s.store.fresh ∧ s.store.isRoot root then
      some (namespace_mount s n target root mode)
    else none
  | .bind n target source mode =>
    if (∀ t ∈ target, s.Valid t) ∧ s.Valid source then some (namespace_bind s n target source mode) else none
  | .lookup d name =>
    match dentry_rcu_get s.store d name with
    | some _ => some s
    | none => (dentry_lookup s.store d name).toOption.map fun r => { s with store := r.1 }

/-! ## Mount points -/

def traverse (s : System) (n : Nat) : Nat → path_t → path_t
  | 0, p => p
  | k + 1, p =>
    if (s.store.dentry p.dentry).mountCount = 0 then p
    else
      match (namespace_get_stack (s.ns n) (p.mount, p.dentry)).bind List.getLast? with
      | none => p
      | some m => traverse s n k { mount := m, dentry := (s.mount m).source }

def namespace_rcu_traverse (s : System) (n : Nat) (p : path_t) : path_t := traverse s n NAMESPACE_MAX_TRAVERSE p

def namespace_get_root (s : System) (n : Nat) : Option path_t :=
  (s.ns n).root.getLast?.map fun m => { mount := m, dentry := (s.mount m).source }

/-! ## What building namespaces keeps -/

structure Inv (s : System) : Prop where
  source : ∀ m < s.mfresh, (s.mount m).source < s.store.fresh
  paired : ∀ m < s.mfresh, (s.mount m).parent = none ↔ (s.mount m).target = none
  /-- The target of a mount is a dentry that the parent mount shows. -/
  target : ∀ m < s.mfresh, ∀ p t, (s.mount m).parent = some p → (s.mount m).target = some t →
    p < m ∧ t < s.store.fresh ∧ s.store.Under (s.mount p).source t
  rooted : ∀ n, ∀ m ∈ (s.ns n).root, m < s.mfresh ∧ (s.mount m).parent = none
  stacked : ∀ n, ∀ e ∈ (s.ns n).mountMap, ∀ m ∈ e.2,
    m < s.mfresh ∧ (s.mount m).parent = some e.1.1 ∧ (s.mount m).target = some e.1.2

variable {s s' s'' : System} {m n d : Nat} {name : name_t} {x x' : namespace_t}

theorem inv_init (store : Store) : Inv (init store) where
  source m hm := absurd hm (Nat.not_lt_zero m)
  paired m hm := absurd hm (Nat.not_lt_zero m)
  target m hm := absurd hm (Nat.not_lt_zero m)
  rooted n m hm := by simp [init] at hm
  stacked n e he := by simp [init] at he

theorem Inv.grow {store : Store} (h : Inv s) (hg : Grows s.store store) : Inv { s with store := store } where
  source m hm := (h.source m hm).trans_le hg.fresh
  paired := h.paired
  target m hm p t hp ht := by
    obtain ⟨hlt, hfresh, hunder⟩ := h.target m hm p t hp ht
    exact ⟨hlt, hfresh.trans_le hg.fresh, hunder.grow hfresh hg⟩
  rooted := h.rooted
  stacked := h.stacked

theorem mem_mounts {k : Nat} : k ∈ x.mounts ↔ k ∈ x.root ∨ ∃ e ∈ x.mountMap, k ∈ e.2 := by
  simp [namespace_t.mounts]

/-- A namespace gets no mount but `m`, and that one where it belongs, and keeps the others. -/
structure Adds (m : Nat) (mount : mount_t) (x x' : namespace_t) : Prop where
  root : ∀ k ∈ x'.root, k ∈ x.root ∨ (k = m ∧ (mount.parent = none ∨ mount.target = none))
  mountMap : ∀ e ∈ x'.mountMap, ∀ k ∈ e.2, (∃ f ∈ x.mountMap, f.1 = e.1 ∧ k ∈ f.2) ∨
    (k = m ∧ mount.parent = some e.1.1 ∧ mount.target = some e.1.2)
  kept : ∀ k ∈ x.mounts, k ∈ x'.mounts

theorem Adds.refl {mount : mount_t} : Adds m mount x x :=
  ⟨fun _ h => .inl h, fun e he _ hk => .inl ⟨e, he, rfl, hk⟩, fun _ h => h⟩

theorem Adds.mem_mounts {mount : mount_t} {k : Nat} (h : Adds m mount x x') (hk : k ∈ x'.mounts) : k ∈ x.mounts ∨ k = m := by
  rcases Vfs.mem_mounts.1 hk with hk | ⟨e, he, hk⟩
  · exact (h.root k hk).imp (fun hk => Vfs.mem_mounts.2 (.inl hk)) And.left
  · exact (h.mountMap e he k hk).imp (fun ⟨f, hf, _, hk⟩ => Vfs.mem_mounts.2 (.inr ⟨f, hf, hk⟩)) And.left

theorem Adds.trans {mount : mount_t} {x'' : namespace_t} (h : Adds m mount x x') (h' : Adds m mount x' x'') :
    Adds m mount x x'' where
  root k hk := (h'.root k hk).elim (h.root k) .inr
  mountMap e he k hk := by
    rcases h'.mountMap e he k hk with ⟨f, hf, hkey, hkf⟩ | hnew
    · rw [← hkey]
      exact h.mountMap f hf k hkf
    · exact .inr hnew
  kept k hk := h'.kept k (h.kept k hk)

theorem mem_stack_push {stack stack' : List Nat} {k : Nat} (h : mount_stack_push stack m = some stack') :
    k ∈ stack' ↔ k ∈ stack ∨ k = m := by
  rw [mount_stack_push] at h
  split_ifs at h
  cases h
  simp

theorem mem_of_stacks_push {key : Nat × Nat} {mountMap mountMap' : List ((Nat × Nat) × List Nat)}
    (h : stacks_push key m mountMap = some mountMap') {e : (Nat × Nat) × List Nat} (he : e ∈ mountMap') {k : Nat}
    (hk : k ∈ e.2) : (∃ f ∈ mountMap, f.1 = e.1 ∧ k ∈ f.2) ∨ (k = m ∧ e.1 = key) := by
  induction mountMap generalizing mountMap' with
  | nil =>
    cases h
    obtain rfl := mem_singleton.1 he
    exact .inr ⟨mem_singleton.1 hk, rfl⟩
  | cons g rest ih =>
    rw [stacks_push] at h
    split_ifs at h with hkey
    · obtain ⟨stack, hstack, rfl⟩ := map_eq_some_iff.1 h
      rcases mem_cons.1 he with rfl | he
      · rcases (mem_stack_push hstack).1 hk with hold | hnew
        · exact .inl ⟨g, mem_cons_self, rfl, hold⟩
        · exact .inr ⟨hnew, hkey⟩
      · exact .inl ⟨e, mem_cons_of_mem _ he, rfl, hk⟩
    · obtain ⟨rest', hrest, rfl⟩ := map_eq_some_iff.1 h
      rcases mem_cons.1 he with rfl | he
      · exact .inl ⟨_, mem_cons_self, rfl, hk⟩
      · rcases ih hrest he with ⟨f, hf, hfe⟩ | hnew
        · exact .inl ⟨f, mem_cons_of_mem _ hf, hfe⟩
        · exact .inr hnew

theorem stacks_push_kept {key : Nat × Nat} {mountMap mountMap' : List ((Nat × Nat) × List Nat)}
    (h : stacks_push key m mountMap = some mountMap') {k : Nat} (hk : ∃ e ∈ mountMap, k ∈ e.2) :
    ∃ e ∈ mountMap', k ∈ e.2 := by
  induction mountMap generalizing mountMap' with
  | nil => simp at hk
  | cons g rest ih =>
    rw [stacks_push] at h
    split_ifs at h
    · obtain ⟨stack, hstack, rfl⟩ := map_eq_some_iff.1 h
      simp only [exists_mem_cons_iff] at hk ⊢
      exact hk.imp_left fun hk => (mem_stack_push hstack).2 (.inl hk)
    · obtain ⟨rest', hrest, rfl⟩ := map_eq_some_iff.1 h
      simp only [exists_mem_cons_iff] at hk ⊢
      exact hk.imp_right (ih hrest)

theorem adds_push {mount : mount_t} (h : x.push m mount = some x') : Adds m mount x x' := by
  rw [namespace_t.push] at h
  split at h
  · next p t hp ht =>
    obtain ⟨mountMap, hstacks, rfl⟩ := map_eq_some_iff.1 h
    refine ⟨fun _ hk => .inl hk, fun e he k hk => ?_, fun k hk => ?_⟩
    · rcases mem_of_stacks_push hstacks he hk with hold | ⟨hkm, hkey⟩
      · exact .inl hold
      · exact .inr ⟨hkm, by rw [hp, hkey], by rw [ht, hkey]⟩
    · exact mem_mounts.2 ((mem_mounts.1 hk).imp_right (stacks_push_kept hstacks))
  · next hno =>
    obtain ⟨root, hroot, rfl⟩ := map_eq_some_iff.1 h
    refine ⟨fun k hk => ?_, fun e he _ hk => .inl ⟨e, he, rfl, hk⟩,
      fun k hk => mem_mounts.2 ((mem_mounts.1 hk).imp_left fun hk => (mem_stack_push hroot).2 (.inl hk))⟩
    rcases (mem_stack_push hroot).1 hk with hold | rfl
    · exact .inl hold
    · refine .inr ⟨rfl, ?_⟩
      cases hp : mount.parent with
      | none => exact .inl rfl
      | some p =>
        cases ht : mount.target with
        | none => exact .inr rfl
        | some t => exact absurd ht (hno p t hp)

/-- The namespaces get no mount but `m`, and nothing else changes. -/
structure AddsAll (m : Nat) (s s' : System) : Prop where
  store : s'.store = s.store
  mount : s'.mount = s.mount
  mfresh : s'.mfresh = s.mfresh
  nfresh : s'.nfresh = s.nfresh
  ns : ∀ n, Adds m (s.mount m) (s.ns n) (s'.ns n)

theorem AddsAll.refl : AddsAll m s s := ⟨rfl, rfl, rfl, rfl, fun _ => .refl⟩

theorem AddsAll.trans (h : AddsAll m s s') (h' : AddsAll m s' s'') : AddsAll m s s'' where
  store := h'.store.trans h.store
  mount := h'.mount.trans h.mount
  mfresh := h'.mfresh.trans h.mfresh
  nfresh := h'.nfresh.trans h.nfresh
  ns n := (h.ns n).trans (by have := h'.ns n; rwa [h.mount] at this)

theorem addsAll_push (h : (s.ns n).push m (s.mount m) = some x) :
    AddsAll m s { s with ns := update s.ns n x } where
  store := rfl
  mount := rfl
  mfresh := rfl
  nfresh := rfl
  ns k := by
    by_cases hk : k = n
    · subst hk
      simp only [update_self]
      exact adds_push h
    · simp only [update_of_ne hk]
      exact .refl

theorem addsAll_foldl {α β : Type} {f : System × β → α → System × β}
    (hf : ∀ r a, AddsAll m r.1 (f r a).1) (l : List α) (r : System × β) : AddsAll m r.1 (l.foldl f r).1 := by
  induction l generalizing r with
  | nil => exact .refl
  | cons a l ih => exact (hf r a).trans (ih (f r a))

theorem addsAll_add (fuel : Nat) : AddsAll m s (namespace_add fuel s n m).1 := by
  induction fuel generalizing s n with
  | zero => exact .refl
  | succ fuel ih =>
    rw [namespace_add, namespace_addWith]
    dsimp only
    cases hx : (s.ns n).push m (s.mount m) with
    | none => exact .refl
    | some x =>
      dsimp only
      split_ifs
      · refine (addsAll_push hx).trans (addsAll_foldl (fun r child => ?_) x.children (_, (), true))
        split_ifs
        · exact ih
        · exact .refl
      · exact addsAll_push hx

/-- A mount that the invariant already knows gets into more namespaces. -/
theorem Inv.adds (h : Inv s) (hm : m < s.mfresh) (ha : AddsAll m s s') : Inv s' where
  source := by
    rw [ha.mfresh, ha.mount, ha.store]
    exact h.source
  paired := by
    rw [ha.mfresh, ha.mount]
    exact h.paired
  target := by
    rw [ha.mfresh, ha.mount, ha.store]
    exact h.target
  rooted n k hk := by
    rw [ha.mfresh, ha.mount]
    rcases (ha.ns n).root k hk with hold | ⟨rfl, hp | ht⟩
    · exact h.rooted n k hold
    · exact ⟨hm, hp⟩
    · exact ⟨hm, (h.paired k hm).2 ht⟩
  stacked n e he k hk := by
    rw [ha.mfresh, ha.mount]
    rcases (ha.ns n).mountMap e he k hk with ⟨f, hf, hkey, hkf⟩ | ⟨rfl, hp, ht⟩
    · rw [← hkey]
      exact h.stacked n f hf k hkf
    · exact ⟨hm, hp, ht⟩

theorem inv_mount_new (h : Inv s) {source : Nat} {target : Option path_t} {mode : mode_t}
    (ht : ∀ t ∈ target, s.Valid t) (hs : source < s.store.fresh) : Inv (mount_new s source target mode) := by
  have hparent : ∀ d, ((mount_new s source target mode).store.dentry d).parent = (s.store.dentry d).parent := by
    intro d
    cases target with
    | none => rfl
    | some t =>
      simp only [mount_new]
      exact modify_field (·.parent) (fun _ => by rfl) d
  have hfresh : (mount_new s source target mode).store.fresh = s.store.fresh := by
    cases target <;> rfl
  have hunder : ∀ a d, s.store.Under a d → (mount_new s source target mode).store.Under a d := by
    intro a d hd
    simpa only [Store.Under, hparent] using hd
  have hself : (mount_new s source target mode).mount s.mfresh =
      { source := source, target := target.map path_t.dentry, parent := target.map path_t.mount, mode := mode } :=
    update_self ..
  have hold : ∀ k < s.mfresh, (mount_new s source target mode).mount k = s.mount k :=
    fun k hk => update_of_ne hk.ne ..
  have hlt : ∀ k < (mount_new s source target mode).mfresh, k < s.mfresh ∨ k = s.mfresh :=
    fun k hk => Nat.lt_or_eq_of_le (Nat.le_of_lt_succ hk)
  constructor
  · intro k hk
    rw [hfresh]
    rcases hlt k hk with hk | rfl
    · rw [hold k hk]
      exact h.source k hk
    · rw [hself]
      exact hs
  · intro k hk
    rcases hlt k hk with hk | rfl
    · rw [hold k hk]
      exact h.paired k hk
    · rw [hself]
      cases target <;> simp
  · intro k hk p t hp htt
    rw [hfresh]
    rcases hlt k hk with hk | rfl
    · rw [hold k hk] at hp htt
      obtain ⟨hpk, hdt, hu⟩ := h.target k hk p t hp htt
      rw [hold p (hpk.trans hk)]
      exact ⟨hpk, hdt, hunder _ _ hu⟩
    · rw [hself] at hp htt
      obtain ⟨q, hq, rfl⟩ := map_eq_some_iff.1 hp
      obtain ⟨q', hq', rfl⟩ := map_eq_some_iff.1 htt
      obtain rfl := Option.some.inj (hq.symm.trans hq')
      obtain ⟨hm, hd, hu⟩ := ht q hq
      rw [hold q.mount hm]
      exact ⟨hm, hd, hunder _ _ hu⟩
  · intro n k hk
    obtain ⟨hk, hp⟩ := h.rooted n k hk
    rw [hold k hk]
    exact ⟨hk.trans (Nat.lt_succ_self _), hp⟩
  · intro n e he k hk
    obtain ⟨hk, hp, htt⟩ := h.stacked n e he k hk
    rw [hold k hk]
    exact ⟨hk.trans (Nat.lt_succ_self _), hp, htt⟩

theorem inv_attach (h : Inv s) {source : Nat} {target : Option path_t} {mode : mode_t}
    (ht : ∀ t ∈ target, s.Valid t) (hs : source < s.store.fresh) : Inv (namespace_attach s n target source mode) := by
  rw [namespace_attach]
  split_ifs
  · dsimp only
    split_ifs
    · exact (inv_mount_new h ht hs).adds (Nat.lt_succ_self _) (addsAll_add _)
    · exact h
  · exact h

theorem Inv.mounted (h : Inv s) (hm : m ∈ (s.ns n).mounts) : m < s.mfresh := by
  rcases mem_mounts.1 hm with hm | ⟨e, he, hm⟩
  · exact (h.rooted n m hm).1
  · exact (h.stacked n e he m hm).1

theorem inv_copy (h : Inv s) (dest src : Nat) : Inv (namespace_copy s dest src) := by
  have hloop : ∀ (l : List Nat) (r : System × Bool), (∀ m ∈ l, m < s.mfresh) → Inv r.1 → r.1.mfresh = s.mfresh →
      Inv (l.foldl (fun r m =>
        if r.2 && !has (s.mount m).mode MODE_PRIVATE then namespace_add s.nfresh r.1 dest m else r) r).1 := by
    intro l
    induction l with
    | nil => exact fun r _ hr _ => hr
    | cons m l ih =>
      intro r hl hr hfresh
      have hm := hl m mem_cons_self
      refine ih _ (fun k hk => hl k (mem_cons_of_mem _ hk)) ?_ ?_ <;> dsimp only <;> split_ifs
      · exact hr.adds (hfresh ▸ hm) (addsAll_add _)
      · exact hr
      · exact (addsAll_add _).mfresh.trans hfresh
      · exact hfresh
  exact hloop _ _ (fun m hm => h.mounted hm) h rfl

/-- A namespace keeps its mounts, or is the new one. -/
theorem namespace_new_ns (s : System) (parent : Option Nat) (n : Nat) :
    ((namespace_new s parent).ns n).root = (s.ns n).root ∧
      ((namespace_new s parent).ns n).mountMap = (s.ns n).mountMap ∨
      ((namespace_new s parent).ns n).root = [] ∧ ((namespace_new s parent).ns n).mountMap = [] := by
  by_cases hn : n = s.nfresh
  · subst hn
    right
    cases parent <;> simp [namespace_new]
  · left
    cases parent with
    | none => simp [namespace_new, update_of_ne hn]
    | some p =>
      by_cases hp : n = p
      · subst hp
        simp [namespace_new, update_of_ne hn]
      · simp [namespace_new, update_of_ne hn, update_of_ne hp]

theorem namespace_new_rest (s : System) (parent : Option Nat) :
    (namespace_new s parent).store = s.store ∧ (namespace_new s parent).mount = s.mount ∧
      (namespace_new s parent).mfresh = s.mfresh := by
  cases parent <;> exact ⟨rfl, rfl, rfl⟩

theorem inv_new (h : Inv s) (parent : Option Nat) : Inv (namespace_new s parent) := by
  have hns := namespace_new_ns s parent
  obtain ⟨hstore, hmount, hfresh⟩ := namespace_new_rest s parent
  constructor
  · rw [hstore, hmount, hfresh]
    exact h.source
  · rw [hmount, hfresh]
    exact h.paired
  · rw [hstore, hmount, hfresh]
    exact h.target
  · intro n m hm
    rw [hmount, hfresh]
    rcases hns n with ⟨hr, _⟩ | ⟨hr, _⟩ <;> rw [hr] at hm
    · exact h.rooted n m hm
    · simp at hm
  · intro n e he
    rw [hmount, hfresh]
    rcases hns n with ⟨_, hst⟩ | ⟨_, hst⟩ <;> rw [hst] at he
    · exact h.stacked n e he
    · simp at he

theorem inv_step {a : Action} (h : Inv s) (hs : step s a = some s') : Inv s' := by
  cases a <;> simp only [step] at hs
  case new parent =>
    split_ifs at hs
    cases hs
    exact inv_new h parent
  case copy dest src =>
    cases hs
    exact inv_copy h dest src
  case mount n target root mode =>
    split_ifs at hs with hok
    cases hs
    exact inv_attach h hok.1 hok.2.1
  case bind n target source mode =>
    split_ifs at hs with hok
    rw [← Option.some.inj hs, namespace_bind]
    split
    · exact h
    · exact inv_attach h hok.1 hok.2.2.1
  case lookup d name =>
    split at hs
    · rwa [← Option.some.inj hs]
    · next hmiss =>
      obtain ⟨r, hr, rfl⟩ := map_eq_some_iff.1 hs
      exact h.grow ((looked_of_lookup (d := r.2) (toOption_eq_some.1 hr)).1.grows hmiss)

end Patchwork.Vfs
