import Patchwork.Lib.Forest
import Patchwork.Fs.Pathname
/-!
# Dentries and vnodes

The dentry cache as the calls of one process after the other see it. A dentry stays in
the cache until its name is removed: what references keep and free is left out, since a
dentry that is made again for the same name gets the same answer from the file system.

A vnode has the operations of tmpfs, or it is of a file system whose directories only
have a `lookup`. `entry` is what a name in a directory stands for, cached or not.
-/

namespace Patchwork.Vfs

open List Function Lib

inductive vtype_t where
  | VREG | VDIR | VSYMLINK
deriving Repr, DecidableEq

structure vnode_t where
  type : vtype_t
  /-- The content of a regular file, or the path that a symbolic link holds. -/
  data : List Char
  tmpfs : Bool
deriving DecidableEq

structure dentry_t where
  name : name_t
  /-- A root is its own parent. -/
  parent : Nat
  vnode : Option Nat
  superblock : Nat
  children : List Nat
  mountCount : Nat
deriving DecidableEq

structure Store where
  dentry : Nat → dentry_t
  /-- The next dentry that `cache_alloc` hands out. -/
  fresh : Nat
  map : List Nat
  vnode : Nat → vnode_t
  vfresh : Nat
  /-- `dir->ops->lookup`, for the directories that have it. -/
  lookup : Nat → name_t → Option Nat
  /-- A parent is older than its children. -/
  parent_le : ∀ d, (dentry d).parent ≤ d
  map_lt : ∀ d ∈ map, d < fresh

variable {s s' s'' : Store} {a d e v : Nat} {name : name_t}

/-- `d` is in the tree under `a`. -/
def Store.Under (s : Store) (a d : Nat) : Prop := Below (fun x => (s.dentry x).parent) a d

instance (s : Store) (a d : Nat) : Decidable (s.Under a d) := decidable_of_iff _ (reaches_iff s.parent_le)

def Store.isRoot (s : Store) (d : Nat) : Bool := (s.dentry d).parent == d

def Store.isPositive (s : Store) (d : Nat) : Bool := (s.dentry d).vnode.isSome

def Store.hasType (s : Store) (d : Nat) (type : vtype_t) : Bool :=
  match (s.dentry d).vnode with
  | some v => (s.vnode v).type == type
  | none => false

/-! ## Changes -/

/-- A change of a dentry that keeps its parent. -/
def Store.modify (s : Store) (d : Nat) (f : dentry_t → dentry_t) (hf : ∀ x, (f x).parent = x.parent) : Store :=
  { s with
    dentry := update s.dentry d (f (s.dentry d))
    parent_le := by
      intro e
      by_cases he : e = d
      · subst he
        rw [update_self, hf]
        exact s.parent_le e
      · rw [update_of_ne he]
        exact s.parent_le e }

def dentry_new (s : Store) (parent : Nat) (name : name_t) (h : parent < s.fresh) : Store :=
  { s with
    dentry := update s.dentry s.fresh
      { name := name, parent := parent, vnode := none, superblock := (s.dentry parent).superblock
        children := [], mountCount := 0 }
    fresh := s.fresh + 1
    map := s.fresh :: s.map
    parent_le := by
      intro e
      by_cases he : e = s.fresh
      · subst he
        rw [update_self]
        exact h.le
      · rw [update_of_ne he]
        exact s.parent_le e
    map_lt := by
      intro e he
      rcases mem_cons.1 he with rfl | he
      · exact Nat.lt_succ_self _
      · exact (s.map_lt e he).trans (Nat.lt_succ_self _) }

def dentry_make_positive (s : Store) (d v : Nat) : Store :=
  let s := s.modify d (fun x => { x with vnode := some v }) fun _ => rfl
  if s.isRoot d then s
  else s.modify (s.dentry d).parent (fun x => { x with children := x.children ++ [d] }) fun _ => rfl

def dentry_map_remove (s : Store) (d : Nat) : Store :=
  { s with map := s.map.erase d, map_lt := fun e he => s.map_lt e (mem_of_mem_erase he) }

/-- `dentry_remove`, and the rest of `dentry_free` when the last reference is dropped. -/
def dentry_remove (s : Store) (d : Nat) : Store :=
  dentry_map_remove (s.modify (s.dentry d).parent (fun x => { x with children := x.children.erase d }) fun _ => rfl) d

/-! ## Lookups -/

def dentry_rcu_get (s : Store) (parent : Nat) (name : name_t) : Option Nat :=
  s.map.find? fun d => (s.dentry d).parent == parent && (s.dentry d).name == name

/-- The part of `dentry_lookup` for a name that is not in the map. -/
def dentry_lookup (s : Store) (parent : Nat) (name : name_t) : Except errno_t (Store × Nat) :=
  if s.hasType parent .VDIR then
    if h : parent < s.fresh then
      match s.lookup parent name with
      | some v => .ok (dentry_make_positive (dentry_new s parent name h) s.fresh v, s.fresh)
      | none => .ok (dentry_new s parent name h, s.fresh)
    else .error .EINVAL
  else .error .ENOENT

/-- What the name stands for: the vnode of its dentry, or what the file system would say. -/
def Store.entry (s : Store) (parent : Nat) (name : name_t) : Option Nat :=
  match dentry_rcu_get s parent name with
  | some d => (s.dentry d).vnode
  | none => s.lookup parent name

/-- `s'` has more dentries in the cache than `s`, and is otherwise the same. -/
structure Grows (s s' : Store) : Prop where
  fresh : s.fresh ≤ s'.fresh
  parent : ∀ d < s.fresh, (s'.dentry d).parent = (s.dentry d).parent
  vnode : ∀ d < s.fresh, (s'.dentry d).vnode = (s.dentry d).vnode
  vnodes : s'.vnode = s.vnode
  entry : ∀ d name, s'.entry d name = s.entry d name

theorem Grows.refl : Grows s s := ⟨Nat.le_refl _, fun _ _ => rfl, fun _ _ => rfl, rfl, fun _ _ => rfl⟩

theorem Grows.trans (h : Grows s s') (h' : Grows s' s'') : Grows s s'' where
  fresh := h.fresh.trans h'.fresh
  parent d hd := (h'.parent d (hd.trans_le h.fresh)).trans (h.parent d hd)
  vnode d hd := (h'.vnode d (hd.trans_le h.fresh)).trans (h.vnode d hd)
  vnodes := h'.vnodes.trans h.vnodes
  entry d name := (h'.entry d name).trans (h.entry d name)

theorem Store.Under.grow (h : s.Under a d) (hd : d < s.fresh) (hg : Grows s s') : s'.Under a d :=
  Below.congr (p := fun x => x < s.fresh) (fun x hx => (s.parent_le x).trans_lt hx) hg.parent hd h

theorem isRoot_grow (hd : d < s.fresh) (hg : Grows s s') : s'.isRoot d = s.isRoot d := by
  rw [Store.isRoot, Store.isRoot, hg.parent d hd]

variable {parent : Nat} {f : dentry_t → dentry_t} {β : Type} {hf : ∀ x, (f x).parent = x.parent}

theorem mem_of_rcu_get (h : dentry_rcu_get s parent name = some d) :
    d ∈ s.map ∧ (s.dentry d).parent = parent ∧ (s.dentry d).name = name := by
  have hp := find?_some h
  simp only [Bool.and_eq_true, beq_iff_eq] at hp
  exact ⟨mem_of_find?_eq_some h, hp⟩

/-! ## A lookup only fills the cache -/

theorem modify_self : (s.modify d f hf).dentry d = f (s.dentry d) := update_self ..

theorem modify_of_ne (h : e ≠ d) : (s.modify d f hf).dentry e = s.dentry e := update_of_ne h ..

theorem modify_field (g : dentry_t → β) (hg : ∀ x, g (f x) = g x) (e : Nat) :
    g ((s.modify d f hf).dentry e) = g (s.dentry e) := by
  by_cases he : e = d
  · subst he
    rw [modify_self, hg]
  · rw [modify_of_ne he]

theorem make_positive_field (g : dentry_t → β) (hv : ∀ x w, g { x with vnode := w } = g x)
    (hc : ∀ x l, g { x with children := l } = g x) (e : Nat) :
    g ((dentry_make_positive s d v).dentry e) = g (s.dentry e) := by
  rw [dentry_make_positive]
  split_ifs
  · exact modify_field g (fun x => hv x _) e
  · rw [modify_field g (fun x => hc x _) e]
    exact modify_field g (fun x => hv x _) e

theorem make_positive_vnode : ((dentry_make_positive s d v).dentry d).vnode = some v := by
  rw [dentry_make_positive]
  split_ifs
  · rw [modify_self]
  · refine (modify_field (·.vnode) (fun _ => by rfl) d).trans ?_
    rw [modify_self]

theorem make_positive_vnode_of_ne (h : e ≠ d) :
    ((dentry_make_positive s d v).dentry e).vnode = (s.dentry e).vnode := by
  rw [dentry_make_positive]
  split_ifs
  · rw [modify_of_ne h]
  · refine (modify_field (·.vnode) (fun _ => by rfl) e).trans ?_
    rw [modify_of_ne h]

theorem make_positive_children (hroot : (s.dentry d).parent ≠ d) :
    ((dentry_make_positive s d v).dentry e).children =
      if e = (s.dentry d).parent then (s.dentry e).children ++ [d] else (s.dentry e).children := by
  have hsame : ∀ x, ((s.modify d (fun x => { x with vnode := some v }) fun _ => rfl).dentry x).children =
      (s.dentry x).children := modify_field (·.children) fun _ => rfl
  have hparent : ((s.modify d (fun x => { x with vnode := some v }) fun _ => rfl).dentry d).parent =
      (s.dentry d).parent := by rw [modify_self]
  rw [dentry_make_positive, Store.isRoot, hparent, beq_false_of_ne hroot, if_neg Bool.false_ne_true]
  split_ifs with he
  · rw [he, modify_self, ← hsame]
  · rw [modify_of_ne he, hsame]

theorem make_positive_rest : (dentry_make_positive s d v).fresh = s.fresh ∧
    (dentry_make_positive s d v).map = s.map ∧ (dentry_make_positive s d v).vnode = s.vnode ∧
    (dentry_make_positive s d v).lookup = s.lookup ∧ (dentry_make_positive s d v).vfresh = s.vfresh := by
  rw [dentry_make_positive]
  split_ifs <;> exact ⟨rfl, rfl, rfl, rfl, rfl⟩

theorem remove_field (g : dentry_t → β) (hc : ∀ x l, g { x with children := l } = g x) (e : Nat) :
    g ((dentry_remove s d).dentry e) = g (s.dentry e) := by
  simp only [dentry_remove, dentry_map_remove]
  exact modify_field g (fun x => hc x _) e

theorem remove_children : ((dentry_remove s d).dentry e).children =
    if e = (s.dentry d).parent then (s.dentry e).children.erase d else (s.dentry e).children := by
  simp only [dentry_remove, dentry_map_remove]
  split_ifs with he
  · rw [he, modify_self]
  · rw [modify_of_ne he]

/-- What a lookup of a name that is not in the map does: one new dentry. -/
structure Looked (s : Store) (parent : Nat) (name : name_t) (s' : Store) : Prop where
  lt : parent < s.fresh
  fresh : s'.fresh = s.fresh + 1
  map : s'.map = s.fresh :: s.map
  new_name : (s'.dentry s.fresh).name = name
  new_parent : (s'.dentry s.fresh).parent = parent
  new_vnode : (s'.dentry s.fresh).vnode = s.lookup parent name
  old_name : ∀ d, d ≠ s.fresh → (s'.dentry d).name = (s.dentry d).name
  old_parent : ∀ d, d ≠ s.fresh → (s'.dentry d).parent = (s.dentry d).parent
  old_vnode : ∀ d, d ≠ s.fresh → (s'.dentry d).vnode = (s.dentry d).vnode
  old_mountCount : ∀ d, d ≠ s.fresh → (s'.dentry d).mountCount = (s.dentry d).mountCount
  vnodes : s'.vnode = s.vnode
  lookup : s'.lookup = s.lookup

theorem looked_new (h : parent < s.fresh) (hlook : s.lookup parent name = none) :
    Looked s parent name (dentry_new s parent name h) where
  lt := h
  fresh := rfl
  map := rfl
  new_name := by simp only [dentry_new, update_self]
  new_parent := by simp only [dentry_new, update_self]
  new_vnode := by simp only [dentry_new, update_self, hlook]
  old_name d hd := by simp only [dentry_new, update_of_ne hd]
  old_parent d hd := by simp only [dentry_new, update_of_ne hd]
  old_vnode d hd := by simp only [dentry_new, update_of_ne hd]
  old_mountCount d hd := by simp only [dentry_new, update_of_ne hd]
  vnodes := rfl
  lookup := rfl

theorem looked_positive (h : parent < s.fresh) (hlook : s.lookup parent name = some v) :
    Looked s parent name (dentry_make_positive (dentry_new s parent name h) s.fresh v) := by
  obtain ⟨hfresh, hmap, hvnode, hlookup, -⟩ :=
    make_positive_rest (s := dentry_new s parent name h) (d := s.fresh) (v := v)
  have hold : ∀ d, d ≠ s.fresh → (dentry_new s parent name h).dentry d = s.dentry d := fun d hd => by
    simp only [dentry_new, update_of_ne hd]
  constructor
  · exact h
  · exact hfresh
  · exact hmap
  · rw [make_positive_field (·.name) (fun _ _ => rfl) fun _ _ => rfl]
    simp only [dentry_new, update_self]
  · rw [make_positive_field (·.parent) (fun _ _ => rfl) fun _ _ => rfl]
    simp only [dentry_new, update_self]
  · rw [make_positive_vnode, hlook]
  · intro d hd
    rw [make_positive_field (·.name) (fun _ _ => rfl) fun _ _ => rfl, hold d hd]
  · intro d hd
    rw [make_positive_field (·.parent) (fun _ _ => rfl) fun _ _ => rfl, hold d hd]
  · intro d hd
    rw [make_positive_vnode_of_ne hd, hold d hd]
  · intro d hd
    rw [make_positive_field (·.mountCount) (fun _ _ => rfl) fun _ _ => rfl, hold d hd]
  · exact hvnode
  · exact hlookup

theorem looked_of_lookup (h : dentry_lookup s parent name = .ok (s', d)) : Looked s parent name s' ∧ d = s.fresh := by
  rw [dentry_lookup] at h
  split_ifs at h with hdir hlt
  split at h
  · next v hv =>
    obtain ⟨rfl, rfl⟩ := Prod.mk.inj (Except.ok.inj h)
    exact ⟨looked_positive hlt hv, rfl⟩
  · next hv =>
    obtain ⟨rfl, rfl⟩ := Prod.mk.inj (Except.ok.inj h)
    exact ⟨looked_new hlt hv, rfl⟩

theorem find_congr {l : List Nat}
    (hl : ∀ d ∈ l, (s'.dentry d).parent = (s.dentry d).parent ∧ (s'.dentry d).name = (s.dentry d).name) :
    l.find? (fun d => (s'.dentry d).parent == parent && (s'.dentry d).name == name) =
      l.find? fun d => (s.dentry d).parent == parent && (s.dentry d).name == name := by
  induction l with
  | nil => rfl
  | cons d l ih =>
    obtain ⟨hp, hn⟩ := hl d mem_cons_self
    rw [find?_cons, find?_cons, hp, hn, ih fun e he => hl e (mem_cons_of_mem _ he)]

theorem Looked.grows (h : Looked s parent name s') (hmiss : dentry_rcu_get s parent name = none) : Grows s s' where
  fresh := by rw [h.fresh]; exact Nat.le_succ _
  parent d hd := h.old_parent d hd.ne
  vnode d hd := h.old_vnode d hd.ne
  vnodes := h.vnodes
  entry d n := by
    have hmap : ∀ x ∈ s.map, x ≠ s.fresh := fun x hx => (s.map_lt x hx).ne
    have hfind : dentry_rcu_get s' d n = if parent = d ∧ name = n then some s.fresh else dentry_rcu_get s d n := by
      rw [dentry_rcu_get, h.map, find?_cons, h.new_parent, h.new_name,
        find_congr fun x hx => ⟨h.old_parent x (hmap x hx), h.old_name x (hmap x hx)⟩]
      by_cases hd : parent = d <;> by_cases hn : name = n <;>
        simp [hd, hn, beq_false_of_ne, dentry_rcu_get]
    rw [Store.entry, Store.entry, hfind, h.lookup]
    split_ifs with hdn
    · obtain ⟨rfl, rfl⟩ := hdn
      rw [hmiss]
      exact h.new_vnode
    · cases hget : dentry_rcu_get s d n with
      | none => rfl
      | some x => exact h.old_vnode x (hmap x (mem_of_rcu_get hget).1)

end Patchwork.Vfs
