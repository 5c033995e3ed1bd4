import Patchwork.Fs.Namespace
/-!
# Walking a path

`path_walk` and `path_step` of `path.c`, with `.`, `..`, symbolic links and mount points.
A path stays inside what the mounts of the namespace show, if the namespace is closed:
with every mount it has the mount's parent, and the mounts at its root show whole file
systems. At the source of a mount without a parent `..` goes on to the dentry's parent,
which is the dentry itself only for the root of a file system.
-/

namespace Patchwork.Vfs

open List Option Lib

def PATH_MAX_DOTDOT : Nat := 1000
def PATH_MAX_SYMLINK : Nat := 40

/-- The part of `path_walk_ctx_t` that changes. A namespace without a root mount gives an
absolute path neither mount nor dentry. -/
structure Ctx where
  s : System
  path : Option path_t

/-! ## The functions -/

/-- The loop of `path_rcu_dotdot`: out of the mounts at whose source the walk is. -/
def climb (s : System) : Nat → path_t → Except errno_t path_t
  | 0, _ => .error .ELOOP
  | k + 1, p =>
    if p.dentry = (s.mount p.mount).source then
      match (s.mount p.mount).parent, (s.mount p.mount).target with
      | some m, some t => climb s k { mount := m, dentry := t }
      | _, _ => .ok p
    else .ok p

def path_rcu_dotdot (c : Ctx) : Except errno_t Ctx :=
  match c.path with
  | none => .error .ENOENT
  | some p =>
    (climb c.s PATH_MAX_DOTDOT p).map fun q =>
      { c with path := some { mount := q.mount, dentry := (c.s.store.dentry q.dentry).parent } }

/-- `dentry_rcu_get`, and `dentry_lookup` if that finds nothing. Neither takes an empty name. -/
def lookup_name (s : Store) (d : Nat) (name : name_t) : Except errno_t (Store × Nat) :=
  if name = [] then .error .EINVAL
  else
    match dentry_rcu_get s d name with
    | some e => .ok (s, e)
    | none => dentry_lookup s d name

def Ctx.traverse (c : Ctx) (n : Nat) : Ctx := { c with path := c.path.map (namespace_rcu_traverse c.s n) }

/-- The walk goes to `next`, or where the link `next` leads. `follow` is `path_rcu_symlink`. -/
def path_rcu_next (follow : Ctx → Nat → Except errno_t Ctx) (mode : mode_t) (c : Ctx) (p : path_t) (next : Nat) :
    Except errno_t Ctx :=
  if c.s.store.hasType next .VSYMLINK && !has mode MODE_NOFOLLOW then follow c next
  else .ok { c with path := some { mount := p.mount, dentry := next } }

/-- One name. -/
def path_rcu_step (follow : Ctx → Nat → Except errno_t Ctx) (n : Nat) (mode : mode_t) (c : Ctx) (name : name_t) :
    Except errno_t Ctx :=
  if name = ['.'] then .ok c
  else if name = ['.', '.'] then path_rcu_dotdot c
  else
    match c.path with
    | none => .error .ENOENT
    | some p => do
      let r ← lookup_name c.s.store p.dentry name
      let c ← path_rcu_next follow mode { c with s := { c.s with store := r.1 } } p r.2
      return if (r.1.dentry r.2).mountCount ≠ 0 then c.traverse n else c

def path_rcu_walk (follow : Ctx → Nat → Except errno_t Ctx) (n : Nat) (mode : mode_t) (c : Ctx)
    (string : List Char) : Except errno_t Ctx :=
  let c := if string.head? = some '/' then { c with path := namespace_get_root c.s n } else c
  (components string).foldlM (path_rcu_step follow n mode) c

/-- `vfs_readlink` into a buffer of `MAX_PATH` characters. -/
def vfs_readlink (s : Store) (d : Nat) : Except errno_t (List Char) :=
  match (s.dentry d).vnode with
  | some v => if (s.vnode v).data = [] then .error .EINVAL else .ok ((s.vnode v).data.take (MAX_PATH - 1))
  | none => .error .EINVAL

/-- The number counts the links that may still be followed inside one another. -/
def path_rcu_symlink (n : Nat) (mode : mode_t) : Nat → Ctx → Nat → Except errno_t Ctx
  | 0, _, _ => .error .ELOOP
  | k + 1, c, symlink => do
    let string ← vfs_readlink c.s.store symlink
    let pathname ← pathname_init string
    path_rcu_walk (path_rcu_symlink n mode k) n mode c pathname.string

/-- The start of a walk, out of a dentry that is mounted over. -/
def walk_start (s : System) (n : Nat) (p : path_t) : Ctx :=
  if (s.store.dentry p.dentry).mountCount ≠ 0 then { s := s, path := some (namespace_rcu_traverse s n p) }
  else { s := s, path := some p }

def path_is_name_valid (name : name_t) : Bool :=
  name ≠ ['.'] && name ≠ ['.', '.'] && decide (name.length < MAX_NAME - 1) && name.all path_is_char_valid

def path_step (s : System) (n : Nat) (mode : mode_t) (p : path_t) (name : name_t) : Except errno_t Ctx :=
  if path_is_name_valid name then
    path_rcu_step (path_rcu_symlink n mode PATH_MAX_SYMLINK) n mode (walk_start s n p) name
  else .error .EINVAL

def path_walk (s : System) (n : Nat) (p : path_t) (pathname : pathname_t) : Except errno_t Ctx :=
  path_rcu_walk (path_rcu_symlink n pathname.mode PATH_MAX_SYMLINK) n pathname.mode (walk_start s n p) pathname.string

/-! ## What a walk keeps -/

/-- What the steps of a walk in the namespace `n` keep: `..`, a name that is looked up (and
may be a link), a mount point, and the root. -/
structure Keeps (n : Nat) (I : Ctx → Prop) : Prop where
  dotdot : ∀ c c', I c → path_rcu_dotdot c = .ok c' → I c'
  lookup : ∀ c p name store next, I c → c.path = some p → lookup_name c.s.store p.dentry name = .ok (store, next) →
    I { c with s := { c.s with store := store } } ∧
      I { s := { c.s with store := store }, path := some { mount := p.mount, dentry := next } }
  traverse : ∀ c, I c → I (c.traverse n)
  root : ∀ c, I c → I { c with path := namespace_get_root c.s n }

section
variable {s : System} {I : Ctx → Prop} {c c' : Ctx} {n d : Nat} {p : path_t} {mode : mode_t} {name : name_t}
  {follow : Ctx → Nat → Except errno_t Ctx}

section
variable (h : Keeps n I)
include h

theorem Keeps.rcu_step (hf : ∀ c d c', I c → follow c d = .ok c' → I c') (hc : I c)
    (hs : path_rcu_step follow n mode c name = .ok c') : I c' := by
  rw [path_rcu_step] at hs
  split_ifs at hs
  · rwa [← Except.ok.inj hs]
  · exact h.dotdot c c' hc hs
  · split at hs
    · exact absurd hs (by simp)
    · next p hp =>
      obtain ⟨⟨store, next⟩, hl, hs⟩ := bind_eq_ok.1 hs
      obtain ⟨c₁, hc₁, hs⟩ := bind_eq_ok.1 hs
      obtain ⟨hgrown, hnext⟩ := h.lookup c p name store next hc hp hl
      have hin : I c₁ := by
        rw [path_rcu_next] at hc₁
        split_ifs at hc₁
        · exact hf _ _ _ hgrown hc₁
        · rw [← Except.ok.inj hc₁]
          exact hnext
      rw [← Except.ok.inj hs]
      split_ifs
      · exact h.traverse c₁ hin
      · exact hin

theorem Keeps.rcu_walk {string : List Char} (hf : ∀ c d c', I c → follow c d = .ok c' → I c')
    (hc : I c) (hs : path_rcu_walk follow n mode c string = .ok c') : I c' := by
  refine foldlM_ok (I := I) (fun _ _ _ hi hstep => h.rcu_step hf hi hstep) ?_ hs
  split_ifs
  · exact h.root c hc
  · exact hc

theorem Keeps.rcu_symlink {k : Nat} (hc : I c) (hs : path_rcu_symlink n mode k c d = .ok c') : I c' := by
  induction k generalizing c d c' with
  | zero => simp [path_rcu_symlink] at hs
  | succ k ih =>
    obtain ⟨string, _, hs⟩ := bind_eq_ok.1 hs
    obtain ⟨pathname, _, hs⟩ := bind_eq_ok.1 hs
    exact h.rcu_walk (fun _ _ _ hi hstep => ih hi hstep) hc hs

theorem Keeps.start (hc : I { s := s, path := some p }) : I (walk_start s n p) := by
  rw [walk_start]
  split_ifs
  · exact h.traverse _ hc
  · exact hc

theorem Keeps.step (hc : I { s := s, path := some p }) (hs : path_step s n mode p name = .ok c) : I c := by
  rw [path_step] at hs
  split_ifs at hs
  exact h.rcu_step (fun _ _ _ hi hf => h.rcu_symlink hi hf) (h.start hc) hs

theorem Keeps.walk {pathname : pathname_t} (hc : I { s := s, path := some p })
    (hs : path_walk s n p pathname = .ok c) : I c :=
  h.rcu_walk (fun _ _ _ hi hf => h.rcu_symlink hi hf) (h.start hc) hs

end

/-- Looking a name up fills the cache and gives a dentry of the directory. -/
theorem lookup_name_spec {store store' : Store} {next : Nat}
    (h : lookup_name store d name = .ok (store', next)) :
    Grows store store' ∧ next < store'.fresh ∧ (store'.dentry next).parent = d := by
  rw [lookup_name] at h
  split_ifs at h
  split at h
  · next e he =>
    obtain ⟨rfl, rfl⟩ := Prod.mk.inj (Except.ok.inj h)
    obtain ⟨hmem, hp, _⟩ := mem_of_rcu_get he
    exact ⟨.refl, store.map_lt e hmem, hp⟩
  · next hmiss =>
    obtain ⟨hlook, rfl⟩ := looked_of_lookup h
    exact ⟨hlook.grows hmiss, by rw [hlook.fresh]; exact Nat.lt_succ_self _, hlook.new_parent⟩

theorem dotdot_system (hs : path_rcu_dotdot c = .ok c') : c'.s = c.s := by
  rw [path_rcu_dotdot] at hs
  split at hs
  · exact absurd hs (by simp)
  · obtain ⟨q, _, rfl⟩ := map_eq_ok.1 hs
    rfl

/-- A walk only fills the cache. -/
structure Walked (s s' : System) : Prop where
  store : Grows s.store s'.store
  mount : s'.mount = s.mount
  mfresh : s'.mfresh = s.mfresh
  ns : s'.ns = s.ns

theorem Walked.refl : Walked s s := ⟨.refl, rfl, rfl, rfl⟩

theorem Walked.trans {s' s'' : System} (h : Walked s s') (h' : Walked s' s'') : Walked s s'' :=
  ⟨h.store.trans h'.store, h'.mount.trans h.mount, h'.mfresh.trans h.mfresh, h'.ns.trans h.ns⟩

theorem keeps_walked : Keeps n fun c => Walked s c.s where
  dotdot c c' hc hs := by
    rw [dotdot_system hs]
    exact hc
  lookup c p name store next hc _ hl := by
    have hgrown : Walked c.s { c.s with store := store } := ⟨(lookup_name_spec hl).1, rfl, rfl, rfl⟩
    exact ⟨hc.trans hgrown, hc.trans hgrown⟩
  traverse c hc := hc
  root c hc := hc

theorem path_step_plain {e : Nat} (hget : dentry_rcu_get s.store p.dentry name = some e)
    (hlink : s.store.hasType e .VSYMLINK = false)
    (hmounts : ∀ x ∈ (s.ns n).mountMap, x.1 ≠ (p.mount, p.dentry) ∧ x.1 ≠ (p.mount, e))
    (hs : path_step s n mode p name = .ok c) : c = { s := s, path := some { mount := p.mount, dentry := e } } := by
  have htraverse : ∀ q : path_t, (∀ x ∈ (s.ns n).mountMap, x.1 ≠ (q.mount, q.dentry)) →
      namespace_rcu_traverse s n q = q := by
    intro q hq
    have hstack : namespace_get_stack (s.ns n) (q.mount, q.dentry) = none := by
      rw [namespace_get_stack, map_eq_none_iff, find?_eq_none]
      exact fun x hx => by simpa using hq x hx
    rw [namespace_rcu_traverse, NAMESPACE_MAX_TRAVERSE, traverse, hstack]
    exact ite_self _
  have hstart : walk_start s n p = { s := s, path := some p } := by
    rw [walk_start, htraverse p fun x hx => (hmounts x hx).1, ite_self]
  rw [path_step, hstart] at hs
  split_ifs at hs with hvalid
  rw [path_rcu_step] at hs
  split_ifs at hs with hdot hdotdot
  · rw [hdot] at hvalid
    exact absurd hvalid (by decide)
  · rw [hdotdot] at hvalid
    exact absurd hvalid (by decide)
  · obtain ⟨⟨store, next⟩, hl, hs⟩ := bind_eq_ok.1 hs
    obtain ⟨c₁, hc₁, hs⟩ := bind_eq_ok.1 hs
    rw [lookup_name, hget] at hl
    split_ifs at hl
    obtain ⟨rfl, rfl⟩ := Prod.mk.inj (Except.ok.inj hl)
    rw [path_rcu_next, hlink, Bool.false_and, if_neg Bool.false_ne_true] at hc₁
    obtain rfl := Except.ok.inj hc₁
    rw [← Except.ok.inj hs]
    split_ifs
    · rw [Ctx.traverse, Option.map_some, htraverse _ fun x hx => (hmounts x hx).2]
    · rfl

end

/-! ## Confinement -/

/-- A path of the namespace: one of its mounts, and a dentry that the mount shows. -/
def Confined (s : System) (n : Nat) (p : path_t) : Prop :=
  p.mount ∈ (s.ns n).mounts ∧ p.dentry < s.store.fresh ∧ s.store.Under (s.mount p.mount).source p.dentry

instance (s : System) (n : Nat) (p : path_t) : Decidable (Confined s n p) := inferInstanceAs (Decidable (_ ∧ _ ∧ _))

/-- The walk leaves mounts and namespaces as they are, and ends at a path of the namespace. -/
def EndsConfined (s : System) (n : Nat) (c : Ctx) : Prop :=
  c.s.mount = s.mount ∧ c.s.ns = s.ns ∧ ∃ q, c.path = some q ∧ Confined c.s n q

/-- No pathname leads out of the namespace. -/
def Confining (s : System) (n : Nat) : Prop :=
  ∀ p, Confined s n p →
    (∀ pathname c, path_walk s n p pathname = .ok c → EndsConfined s n c) ∧
    ∀ mode name c, path_step s n mode p name = .ok c → EndsConfined s n c

/-- With a mount the namespace has its parent. -/
def Closed (s : System) (n : Nat) : Prop := ∀ m ∈ (s.ns n).mounts, ∀ p ∈ (s.mount m).parent, p ∈ (s.ns n).mounts

instance (s : System) (n : Nat) : Decidable (Closed s n) :=
  inferInstanceAs (Decidable (∀ m ∈ (s.ns n).mounts, _))

/-- The mounts at the root of the namespace show whole file systems. -/
def WholeRoots (s : System) (n : Nat) : Prop := ∀ m ∈ (s.ns n).root, s.store.isRoot (s.mount m).source = true

instance (s : System) (n : Nat) : Decidable (WholeRoots s n) :=
  inferInstanceAs (Decidable (∀ m ∈ (s.ns n).root, _))

/-- What holds at every point of a walk that starts in `s`. -/
structure Inside (s : System) (n : Nat) (c : Ctx) : Prop where
  inv : Inv c.s
  closed : Closed c.s n
  whole : WholeRoots c.s n
  ends : EndsConfined s n c

variable {s : System} {c c' : Ctx} {n d : Nat} {p q : path_t} {mode : mode_t} {name : name_t}
  {follow : Ctx → Nat → Except errno_t Ctx}

theorem WholeRoots.grow {store : Store} (h : WholeRoots s n) (hi : Inv s) (hg : Grows s.store store) :
    WholeRoots { s with store := store } n := by
  intro m hm
  rw [isRoot_grow (hi.source m (hi.rooted n m hm).1) hg]
  exact h m hm

theorem Inv.mem_root (h : Inv s) {m : Nat} (hm : m ∈ (s.ns n).mounts) (hp : (s.mount m).parent = none) :
    m ∈ (s.ns n).root := by
  rcases mem_mounts.1 hm with hroot | ⟨e, he, hme⟩
  · exact hroot
  · rw [(h.stacked n e he m hme).2.1] at hp
    exact absurd hp (some_ne_none _)

theorem Confined.grow {store : Store} (h : Confined s n p) (hg : Grows s.store store) :
    Confined { s with store := store } n p :=
  ⟨h.1, h.2.1.trans_le hg.fresh, h.2.2.grow h.2.1 hg⟩

/-- Every mount stands, over its parents, on a mount at the root. -/
theorem Closed.root_ne_nil (h : Closed s n) (hi : Inv s) {m : Nat} (hm : m ∈ (s.ns n).mounts) : (s.ns n).root ≠ [] := by
  induction m using Nat.strong_induction_on with
  | _ m ih =>
    rcases mem_mounts.1 hm with hroot | ⟨e, he, hme⟩
    · exact ne_nil_of_mem hroot
    · obtain ⟨hlt, hp, ht⟩ := hi.stacked n e he m hme
      exact ih e.1.1 (hi.target m hlt _ _ hp ht).1 (h m hm _ hp)

theorem confined_source (hi : Inv s) {m : Nat} (hm : m ∈ (s.ns n).mounts) :
    Confined s n { mount := m, dentry := (s.mount m).source } :=
  ⟨hm, hi.source m (hi.mounted hm), .refl⟩

theorem confined_root (h : Closed s n) (hi : Inv s) (hp : Confined s n p) :
    ∃ q, namespace_get_root s n = some q ∧ Confined s n q := by
  have hroot := h.root_ne_nil hi hp.1
  refine ⟨_, by rw [namespace_get_root, getLast?_eq_some_getLast hroot]; rfl, ?_⟩
  exact confined_source hi (mem_mounts.2 (.inl (getLast_mem hroot)))

/-- Each round ends at the source of a mount of the namespace. -/
theorem traverse_induct {P : path_t → Prop}
    (hmount : ∀ m ∈ (s.ns n).mounts, P { mount := m, dentry := (s.mount m).source }) (k : Nat) (hp : P p) :
    P (traverse s n k p) := by
  induction k generalizing p with
  | zero => exact hp
  | succ k ih =>
    rw [traverse]
    split_ifs
    · exact hp
    · split
      · exact hp
      · next m hm =>
        obtain ⟨stack, hstack, hlast⟩ := bind_eq_some_iff.1 hm
        obtain ⟨e, he, rfl⟩ := map_eq_some_iff.1 hstack
        apply ih
        exact hmount m (mem_mounts.2 (.inr ⟨e, mem_of_find?_eq_some he, mem_of_getLast? hlast⟩))

/-- The loop ends below the source of a mount, or at the root of a file system. -/
theorem confined_climb (h : Closed s n) (hw : WholeRoots s n) (hi : Inv s) {k : Nat} (hp : Confined s n p)
    (hc : climb s k p = .ok q) :
    Confined s n q ∧ (q.dentry ≠ (s.mount q.mount).source ∨ s.store.isRoot q.dentry = true) := by
  induction k generalizing p with
  | zero => simp [climb] at hc
  | succ k ih =>
    have hlt := hi.mounted hp.1
    rw [climb] at hc
    split_ifs at hc with hsource
    · split at hc
      · next m t hm ht =>
        obtain ⟨_, hfresh, hunder⟩ := hi.target p.mount hlt m t hm ht
        exact ih ⟨h p.mount hp.1 m hm, hfresh, hunder⟩ hc
      · next hno =>
        obtain rfl := Except.ok.inj hc
        refine ⟨hp, .inr ?_⟩
        rw [hsource]
        apply hw p.mount (hi.mem_root hp.1 ?_)
        cases hpar : (s.mount p.mount).parent with
        | none => rfl
        | some m =>
          cases htar : (s.mount p.mount).target with
          | none => exact ((hi.paired p.mount hlt).2 htar).symm.trans hpar |>.symm
          | some t => exact absurd htar (hno m t hpar)
    · obtain rfl := Except.ok.inj hc
      exact ⟨hp, .inl hsource⟩

theorem confined_parent (hp : Confined s n p)
    (hup : p.dentry ≠ (s.mount p.mount).source ∨ s.store.isRoot p.dentry = true) :
    Confined s n { mount := p.mount, dentry := (s.store.dentry p.dentry).parent } := by
  refine ⟨hp.1, (s.store.parent_le p.dentry).trans_lt hp.2.1, ?_⟩
  rcases hup with hne | hroot
  · exact hp.2.2.up hne
  · rw [show (s.store.dentry p.dentry).parent = p.dentry from beq_iff_eq.1 hroot]
    exact hp.2.2

/-! ## The walk -/

theorem Inside.path (h : Inside s n c) (hp : Confined c.s n p) : Inside s n { c with path := some p } :=
  ⟨h.inv, h.closed, h.whole, h.ends.1, h.ends.2.1, p, rfl, hp⟩

theorem Inside.grow {store : Store} (h : Inside s n c) (hg : Grows c.s.store store) :
    Inside s n { c with s := { c.s with store := store } } := by
  obtain ⟨hm, hn, p, hp, hc⟩ := h.ends
  exact ⟨h.inv.grow hg, h.closed, h.whole.grow h.inv hg, hm, hn, p, hp, hc.grow hg⟩

theorem Inside.traverse (h : Inside s n c) : Inside s n (c.traverse n) := by
  obtain ⟨_, _, p, hp, hc⟩ := h.ends
  rw [Ctx.traverse, hp]
  exact h.path (traverse_induct (fun _ => confined_source h.inv) _ hc)

theorem inside_dotdot (h : Inside s n c) (hs : path_rcu_dotdot c = .ok c') : Inside s n c' := by
  obtain ⟨_, _, p, hp, hc⟩ := h.ends
  rw [path_rcu_dotdot, hp] at hs
  obtain ⟨q, hq, rfl⟩ := map_eq_ok.1 hs
  obtain ⟨hqc, hup⟩ := confined_climb h.closed h.whole h.inv hc hq
  exact h.path (confined_parent hqc hup)

theorem keeps_inside : Keeps n (Inside s n) where
  dotdot _ _ h hs := inside_dotdot h hs
  lookup c p name store next h hp hl := by
    obtain ⟨hg, hlt, hpar⟩ := lookup_name_spec hl
    have hgrown := h.grow hg
    obtain ⟨_, _, q, hq, hc⟩ := h.ends
    obtain rfl := Option.some.inj (hp.symm.trans hq)
    refine ⟨hgrown, hgrown.path ⟨hc.1, hlt, Below.child ?_⟩⟩
    rw [hpar]
    exact hc.2.2.grow hc.2.1 hg
  traverse _ h := h.traverse
  root c h := by
    obtain ⟨_, _, p, _, hc⟩ := h.ends
    obtain ⟨q, hq, hqc⟩ := confined_root h.closed h.inv hc
    rw [hq]
    exact h.path hqc

/-! ## The way back out of a mount point -/

/-- `..` undoes the mounts that the walk has gone into. -/
theorem climb_traverse (hi : Inv s) {k j : Nat} (hj : k ≤ j) :
    ∃ i, j - k ≤ i ∧ climb s j (traverse s n k p) = climb s i p := by
  induction k generalizing p j with
  | zero => exact ⟨j, Nat.le_refl _, rfl⟩
  | succ k ih =>
    rw [traverse]
    split_ifs
    · exact ⟨j, Nat.sub_le _ _, rfl⟩
    · split
      · exact ⟨j, Nat.sub_le _ _, rfl⟩
      · next m hm =>
        obtain ⟨stack, hstack, hlast⟩ := bind_eq_some_iff.1 hm
        obtain ⟨e, he, rfl⟩ := map_eq_some_iff.1 hstack
        have hkey : e.1 = (p.mount, p.dentry) := by simpa using find?_some he
        obtain ⟨_, hpar, htar⟩ := hi.stacked n e (mem_of_find?_eq_some he) m (mem_of_getLast? hlast)
        obtain ⟨i, hi', hclimb⟩ := ih (p := { mount := m, dentry := (s.mount m).source }) (Nat.le_of_succ_le hj)
        obtain ⟨i, rfl⟩ : ∃ i', i = i' + 1 := ⟨i - 1, by omega⟩
        refine ⟨i, by omega, ?_⟩
        rw [hclimb, climb, if_pos rfl, hpar, htar, hkey]

/-- From the root of the namespace, `..` goes to the parent of the root's source. -/
theorem dotdot_root (hi : Inv s) {m : Nat} (hm : m ∈ (s.ns n).root) :
    path_walk s n { mount := m, dentry := (s.mount m).source } { string := ['.', '.'], mode := MODE_NONE } =
      .ok { s := s, path := some { mount := m, dentry := (s.store.dentry (s.mount m).source).parent } } := by
  have hend : ∀ i, 0 < i → climb s i { mount := m, dentry := (s.mount m).source } =
      .ok { mount := m, dentry := (s.mount m).source } := by
    intro i hi'
    obtain ⟨i, rfl⟩ : ∃ i', i = i' + 1 := ⟨i - 1, by omega⟩
    rw [climb, if_pos rfl, (hi.rooted n m hm).2]
  have hwalk : ∀ p, climb s PATH_MAX_DOTDOT p = .ok { mount := m, dentry := (s.mount m).source } →
      path_rcu_walk (path_rcu_symlink n MODE_NONE PATH_MAX_SYMLINK) n MODE_NONE { s := s, path := some p } ['.', '.'] =
      .ok { s := s, path := some { mount := m, dentry := (s.store.dentry (s.mount m).source).parent } } := by
    intro p hp
    have hnames : components ['.', '.'] = [['.', '.']] := by decide
    rw [path_rcu_walk, hnames, foldlM_cons, path_rcu_step]
    simp [path_rcu_dotdot, hp, Except.map, bind, Except.bind, pure, Except.pure]
  rw [path_walk, walk_start]
  split_ifs
  · apply hwalk
    obtain ⟨i, hle, hclimb⟩ := climb_traverse (n := n) (p := { mount := m, dentry := (s.mount m).source }) hi
      (show NAMESPACE_MAX_TRAVERSE ≤ PATH_MAX_DOTDOT by decide)
    rw [namespace_rcu_traverse, hclimb]
    apply hend
    have : PATH_MAX_DOTDOT - NAMESPACE_MAX_TRAVERSE = 968 := rfl
    omega
  · apply hwalk
    exact hend _ (by decide)

theorem wholeRoots_of_confining (hi : Inv s) (h : Confining s n) : WholeRoots s n := by
  intro m hm
  have hsource := confined_source hi (mem_mounts.2 (.inl hm))
  obtain ⟨_, _, q, hq, _, _, hunder⟩ := (h _ hsource).1 _ _ (dotdot_root hi hm)
  obtain rfl := Option.some.inj hq
  have hle : (s.mount m).source ≤ (s.store.dentry (s.mount m).source).parent := hunder.le s.store.parent_le
  exact beq_iff_eq.2 (Nat.le_antisymm (s.store.parent_le _) hle)

/-- However a namespace was built, if it has the parents of its mounts then no pathname
leads out of it exactly if the mounts at its root show whole file systems. -/
theorem walk_confined_iff (store : Store) (acts : List Action) (s : System) (h : run step (init store) acts = some s)
    (n : Nat) (hclosed : Closed s n) : Confining s n ↔ WholeRoots s n := by
  have hi : Inv s := (always_of_step (fun _ _ _ hi hs => inv_step hi hs) (inv_init store) acts).last h
  refine ⟨wholeRoots_of_confining hi, fun hwhole p hp => ?_⟩
  have hstart : Inside s n { s := s, path := some p } := ⟨hi, hclosed, hwhole, rfl, rfl, p, rfl, hp⟩
  exact ⟨fun _ _ hc => (keeps_inside.walk hstart hc).ends, fun _ _ _ hc => (keeps_inside.step hstart hc).ends⟩

/-! ## Targets in the namespace -/

/-- What the namespace may get has its parent in it. -/
def HasTargets (n : Nat) (s : System) : Action → Prop
  | .mount _ target _ _ | .bind _ target _ _ => ∀ t ∈ target, t.mount ∈ (s.ns n).mounts
  | .copy _ src => ∀ m ∈ (s.ns src).mounts, ∀ p ∈ (s.mount m).parent, p ∈ (s.ns n).mounts
  | .new _ | .lookup _ _ => True

section
variable {s' : System} {m : Nat} (h : Closed s n)
include h

theorem Closed.adds (ha : AddsAll m s s') (hm : ∀ p ∈ (s.mount m).parent, p ∈ (s.ns n).mounts) : Closed s' n := by
  intro k hk p hp
  rw [ha.mount] at hp
  apply (ha.ns n).kept
  rcases (ha.ns n).mem_mounts hk with hold | rfl
  · exact h k hold p hp
  · exact hm p hp

theorem Closed.attach (hi : Inv s) {k source : Nat} {target : Option path_t}
    (ht : ∀ t ∈ target, t.mount ∈ (s.ns n).mounts) : Closed (namespace_attach s k target source mode) n := by
  have hnew : Closed (mount_new s source target mode) n := by
    intro k hk p hp
    have hne : k ≠ s.mfresh := (hi.mounted hk).ne
    exact h k hk p (by simpa only [mount_new, Function.update_of_ne hne] using hp)
  unfold namespace_attach
  dsimp only
  split_ifs
  · refine hnew.adds (addsAll_add _) fun p hp => ?_
    have hparent : p ∈ target.map path_t.mount := by simpa only [mount_new, Function.update_self] using hp
    obtain ⟨t, htt, rfl⟩ := map_eq_some_iff.1 hparent
    exact ht t htt
  · exact h
  · exact h

theorem Closed.copy {dest src : Nat}
    (hsrc : ∀ m ∈ (s.ns src).mounts, ∀ p ∈ (s.mount m).parent, p ∈ (s.ns n).mounts) :
    Closed (namespace_copy s dest src) n := by
  suffices hloop : ∀ (l : List Nat) (r : System × Bool), (∀ m ∈ l, ∀ p ∈ (r.1.mount m).parent, p ∈ (r.1.ns n).mounts) →
      Closed r.1 n → Closed (l.foldl (fun r m =>
        if r.2 && !has (s.mount m).mode MODE_PRIVATE then namespace_add s.nfresh r.1 dest m else r) r).1 n from
    hloop _ _ hsrc h
  intro l
  induction l with
  | nil => exact fun _ _ hr => hr
  | cons m l ih =>
    intro r hl hr
    rw [foldl_cons]
    split_ifs
    · have ha : AddsAll m r.1 (namespace_add s.nfresh r.1 dest m).1 := addsAll_add _
      refine ih _ (fun k hk p hp => (ha.ns n).kept p ?_) (hr.adds ha (hl m mem_cons_self))
      rw [ha.mount] at hp
      exact hl k (mem_cons_of_mem _ hk) p hp
    · exact ih r (fun k hk => hl k (mem_cons_of_mem _ hk)) hr

theorem Closed.step {a : Action} (hi : Inv s) (hw : HasTargets n s a) (hs : step s a = some s') : Closed s' n := by
  cases a <;> simp only [Vfs.step] at hs
  case new parent =>
    split_ifs at hs
    cases hs
    intro m hm p hp
    rw [(namespace_new_rest s parent).2.1] at hp
    rcases namespace_new_ns s parent n with ⟨hroot, hmap⟩ | ⟨hroot, hmap⟩
    all_goals simp only [namespace_t.mounts, hroot, hmap] at hm ⊢
    · exact h m hm p hp
    · simp at hm
  case copy dest src =>
    cases hs
    exact h.copy hw
  case mount k target root mode =>
    split_ifs at hs
    cases hs
    exact h.attach hi hw
  case bind k target source mode =>
    split_ifs at hs
    rw [← Option.some.inj hs, namespace_bind]
    split
    · exact h
    · exact h.attach hi hw
  case lookup d name =>
    split at hs
    · rwa [← Option.some.inj hs]
    · obtain ⟨r, -, rfl⟩ := map_eq_some_iff.1 hs
      exact h

end

/-- A namespace has the parents of its mounts on every run that gives it only mounts whose targets it has. -/
theorem closed_always (store : Store) (n : Nat) (acts : List Action) (h : Along step (HasTargets n) (init store) acts) :
    Always step (fun s => Closed s n) (init store) acts := by
  refine (h.always (I := fun s => Inv s ∧ Closed s n) (fun s a s' hi hw hs => ?_) ⟨inv_init store, ?_⟩).mono
    fun _ hi => hi.2
  · exact ⟨inv_step hi.1 hs, hi.2.step hi.1 hw hs⟩
  · intro m hm
    cases hm

/-! ## A directory as the root of a namespace -/

/-- A file system with a directory `home` in its root, which holds the directory `user`. -/
def homes : Store where
  dentry := fun
    | 0 => { name := [], parent := 0, vnode := some 0, superblock := 0, children := [1], mountCount := 0 }
    | 1 => { name := "home".toList, parent := 0, vnode := some 0, superblock := 0, children := [2], mountCount := 0 }
    | 2 => { name := "user".toList, parent := 1, vnode := some 0, superblock := 0, children := [], mountCount := 0 }
    | _ => { name := [], parent := 0, vnode := none, superblock := 0, children := [], mountCount := 0 }
  fresh := 3
  map := [2, 1, 0]
  vnode := fun _ => { type := .VDIR, data := [], tmpfs := true }
  vfresh := 1
  lookup := fun _ _ => none
  parent_le := by
    intro d
    split <;> dsimp only <;> omega
  map_lt := by decide

/-- The file system is mounted as the root and `user` is bound over `home`. -/
def boundHome : List Action :=
  [.mount 0 none 0 MODE_ALL_PERMS, .bind 0 (some ⟨0, 1⟩) ⟨0, 2⟩ MODE_READ]

theorem boundHome_confined : ∃ s, run step (init homes) boundHome = some s ∧ Closed s 0 ∧ WholeRoots s 0 ∧
    Confined s 0 ⟨1, 2⟩ ∧ Confining s 0 := by
  obtain ⟨s, hs, hclosed, hwhole, hconf⟩ := run_to step (init homes) boundHome
    (fun s => Closed s 0 ∧ WholeRoots s 0 ∧ Confined s 0 ⟨1, 2⟩) (by decide +kernel)
  exact ⟨s, hs, hclosed, hwhole, hconf, (walk_confined_iff homes boundHome s hs 0 hclosed).2 hwhole⟩

/-- A second namespace gets `home` bound as its root. -/
def boundRoot : List Action :=
  [.mount 0 none 0 MODE_ALL_PERMS, .new none, .bind 1 none ⟨0, 1⟩ MODE_READ]

/-- In it, `..` leads from its root to the root of the file system. -/
theorem boundRoot_not_confined : ¬ ∀ s, run step (init homes) boundRoot = some s → Confining s 1 := by
  intro h
  obtain ⟨s, hs, hconf, c, hc, hno⟩ := run_to step (init homes) boundRoot (fun s => Confined s 1 ⟨1, 1⟩ ∧
    ∃ c ∈ (path_walk s 1 ⟨1, 1⟩ ⟨"..".toList, MODE_NONE⟩).toOption, ∀ q ∈ c.path, ¬ Confined c.s 1 q) (by decide +kernel)
  obtain ⟨_, _, q, hq, hqc⟩ := (h s hs ⟨1, 1⟩ hconf).1 _ c (toOption_eq_some.1 hc)
  exact hno q hq hqc

end Patchwork.Vfs
