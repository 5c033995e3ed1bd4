import Patchwork.Lib.Runs
import Patchwork.Utils.RbRemove
/-!
# Sequences of operations on a tree

A tree starts empty, and nodes are inserted, removed and moved after a change
of their key, in any order. `live` records the nodes that were inserted and not
removed since. The red-black invariant holds in every state of every run
(`red_black_always`), and no operation fails an `assert` or runs out of fuel.

The augmented values are right in every state exactly if no node with a stale
value is inserted into the empty tree (`augmented_iff_fresh_root`): there
`rbtree_insert_at` returns before it calls `update`.
-/

namespace Patchwork.RbTree

open List Function Lib Lib.RedBlack CTree

variable {P K A : Type}

structure State (P K A : Type) where
  tree : rbtree_t P K A
  live : List P

/-- The operations; `insert` sets the key and the value the new node carries,
`fix` the new key of the node. -/
inductive Action (P K A : Type) where
  | insert (node : P) (key : K) (aug : A)
  | remove (node : P)
  | fix (node : P) (key : K)

/-- The operations and `rbtree_swap`. -/
inductive Public (P K A : Type) where
  | op (a : Action P K A)
  | swap (a b : P)

/-- Nodes that are not in the tree are as `RBNODE_CREATE` leaves them. -/
def init (key : P → K) (aug : P → A) : State P K A := ⟨⟨none, fun _ => {}, key, aug⟩, []⟩

variable [DecidableEq P]

def Action.apply (cb : Callbacks K A) (fuel : Nat) (t : rbtree_t P K A) : Action P K A → Option (rbtree_t P K A)
  | insert p k v =>
    rbtree_insert cb fuel { t with key := update t.key p k, aug := update t.aug p v } p
  | remove p => rbtree_remove cb fuel t p
  | fix p k => rbtree_fix cb fuel { t with key := update t.key p k } p

def Action.live (l : List P) : Action P K A → List P
  | insert p _ _ => p :: l
  | remove p => l.erase p
  | fix _ _ => l

/-- A fresh node is inserted, a node of the tree is removed or moved. -/
def Action.Enabled (s : State P K A) : Action P K A → Prop
  | insert p _ _ => p ∉ s.live
  | remove p => p ∈ s.live
  | fix p _ => p ∈ s.live

instance (s : State P K A) (a : Action P K A) : Decidable (a.Enabled s) := by
  cases a <;> unfold Action.Enabled <;> infer_instance

/-- The loops of an operation move along paths of the tree, so this much fuel is
enough. -/
def State.fuel (s : State P K A) : Nat := s.live.length + 2

def step (cb : Callbacks K A) (s : State P K A) (a : Action P K A) : Option (State P K A) :=
  if a.Enabled s then (a.apply cb s.fuel s.tree).map fun t => ⟨t, a.live s.live⟩ else none

def Public.Enabled (s : State P K A) : Public P K A → Prop
  | .op a => a.Enabled s
  | .swap a b => a ∈ s.live ∧ b ∈ s.live

instance (s : State P K A) (a : Public P K A) : Decidable (a.Enabled s) := by
  cases a <;> unfold Public.Enabled <;> infer_instance

def Public.apply (cb : Callbacks K A) (fuel : Nat) (t : rbtree_t P K A) : Public P K A → Option (rbtree_t P K A)
  | .op a => a.apply cb fuel t
  | .swap a b => rbtree_swap cb fuel t a b

def Public.live (l : List P) : Public P K A → List P
  | .op a => a.live l
  | .swap _ _ => l

def publicStep (cb : Callbacks K A) (s : State P K A) (a : Public P K A) : Option (State P K A) :=
  if a.Enabled s then (a.apply cb s.fuel s.tree).map fun t => ⟨t, a.live s.live⟩ else none

/-! ## One operation -/

/-- The state without the order of its keys. -/
structure Shape (s : State P K A) (T : CTree P) : Prop where
  rep : Rep s.tree T
  valid : ∃ n, Valid T .black n
  live : T.inorder.Perm s.live
  out : ∀ q, q ∉ s.live → s.tree.node q = {}

variable {s : State P K A} {T : CTree P} {fuel : Nat} {cb : Callbacks K A} {p : P}

omit [DecidableEq P] in
theorem Shape.lt_fuel (h : Shape s T) (hfuel : s.fuel ≤ fuel) : T.inorder.length + 1 < fuel := by
  unfold State.fuel at hfuel
  rw [h.live.length_eq]
  omega

/-- The value an inserted node carries is right if it becomes the root. -/
def FreshRoot (cb : Callbacks K A) (s : State P K A) : Action P K A → Prop
  | .insert _ k v => s.live = [] → ∀ f, cb.update = some f → v = f k none none
  | _ => True

/-- What an operation does from a state of shape `T`. -/
structure Stepped (cb : Callbacks K A) (s s' : State P K A) (T T' : CTree P) (ok : Prop) : Prop where
  shape : Shape s' T'
  sorted : IsCompare cb.compare → Sorted cb s.tree.key T.inorder → Sorted cb s'.tree.key T'.inorder
  fresh : (∀ q ∈ T.inorder, Fresh cb s.tree q) → ok → ∀ q ∈ T'.inorder, Fresh cb s'.tree q

omit [DecidableEq P] in
theorem Sorted.congr {key key' : P → K} {l : List P} (h : Sorted cb key l)
    (heq : ∀ x ∈ l, key' x = key x) : Sorted cb key' l :=
  h.imp_of_mem fun hx hy hle => by rwa [heq _ hx, heq _ hy]

section
variable (cb) (h : Shape s T)
include h

theorem insert_stepped {k : K} {v : A} (hp : p ∉ s.live) (hfuel : s.fuel ≤ fuel) :
    ∃ t' T', (Action.insert p k v).apply cb fuel s.tree = some t' ∧
      Stepped cb s ⟨t', p :: s.live⟩ T T' (FreshRoot cb s (.insert p k v)) := by
  obtain ⟨n, hn⟩ := h.valid
  have hpT : p ∉ T.inorder := fun hm => hp (h.live.mem_iff.1 hm)
  have hne : ∀ q ∈ T.inorder, q ≠ p := fun q hq he => hpT (he ▸ hq)
  have hrep : Rep { s.tree with key := update s.tree.key p k, aug := update s.tree.aug p v } T :=
    ⟨h.rep.root, h.rep.mem, h.rep.nodup⟩
  obtain ⟨t', T', ht', hi⟩ := insert_spec cb hrep hn hpT (h.out p hp) (h.lt_fuel hfuel)
  obtain ⟨before, after, hT, hT', hfits⟩ := hi.place
  refine ⟨t', T', ht', ⟨hi.rep, hi.valid, ?_, fun q hq => ?_⟩, fun hcmp hs => ?_, fun hf hok => hi.fresh ?_ ?_⟩
  · rw [hT']
    exact perm_middle.trans ((hT ▸ h.live).cons p)
  · obtain ⟨hqp, hq⟩ := not_or.1 (mt mem_cons.2 hq)
    rw [hi.out q hqp fun hm => hq (h.live.mem_iff.1 hm)]
    exact h.out q hq
  · have hs' : Sorted cb (update s.tree.key p k) T.inorder :=
      hs.congr fun x hx => update_of_ne (hne x hx) _ _
    have hfit := hfits hcmp hs'
    rw [hT] at hs'
    rw [hT', hi.key]
    exact hfit.sorted hs'
  · intro q hq
    refine (hf q hq).congr rfl (update_of_ne (hne q hq) _ _) (update_of_ne (hne q hq) _ _) ?_
    exact fun d c hc => update_of_ne (hne c (h.rep.child hq hc).1) _ _
  · rcases eq_or_ne s.live [] with hl | hl
    · right
      intro f hf'
      have hch : s.tree.node p = {} := h.out p hp
      simpa [hch] using hok hl f hf'
    · left
      rintro rfl
      exact hl (nil_perm.1 h.live)

theorem remove_stepped (hp : p ∈ s.live) (hfuel : s.fuel ≤ fuel) :
    ∃ t' T', (Action.remove p).apply cb fuel s.tree = some t' ∧ Stepped cb s ⟨t', s.live.erase p⟩ T T' True := by
  obtain ⟨n, hn⟩ := h.valid
  obtain ⟨t', T', ht', hu, hv⟩ := remove_spec cb h.rep hn (h.live.mem_iff.2 hp) (h.lt_fuel hfuel)
  refine ⟨t', T', ht', ⟨hu.rep, hv, ?_, fun q hq => ?_⟩, fun _ hs => ?_, fun hf _ => hu.fresh hf⟩
  · rw [hu.inorder]
    exact h.live.erase p
  · rcases eq_or_ne q p with rfl | hqp
    · exact hu.self
    · have hql : q ∉ s.live := fun hm => hq ((mem_erase_of_ne hqp).2 hm)
      rw [hu.out q fun hm => hql (h.live.mem_iff.1 hm)]
      exact h.out q hql
  · rw [hu.inorder, hu.key]
    exact hs.sublist erase_sublist

theorem fix_stepped {k : K} (hp : p ∈ s.live) (hfuel : s.fuel ≤ fuel) :
    ∃ t' T', (Action.fix p k).apply cb fuel s.tree = some t' ∧ Stepped cb s ⟨t', s.live⟩ T T' True := by
  obtain ⟨n, hn⟩ := h.valid
  have hrep : Rep { s.tree with key := update s.tree.key p k } T := ⟨h.rep.root, h.rep.mem, h.rep.nodup⟩
  obtain ⟨t', T', ht', hs, hfresh⟩ :=
    fix_spec cb hrep (Nat.lt_of_succ_lt (h.lt_fuel hfuel)) (h.live.mem_iff.2 hp)
  refine ⟨t', T', ht', ⟨hs.rep, ⟨n, hs.valid _ _ hn⟩, hs.perm.trans h.live, fun q hq => ?_⟩, fun hcmp hsort => ?_,
    fun hf _ => hfresh fun q hq hqp => ?_⟩
  · rw [hs.out q fun hm => hq (h.live.mem_iff.1 hm)]
    exact h.out q hq
  · rw [hs.key]
    have hrest : Sorted cb s.tree.key (T.inorder.erase p) := hsort.sublist erase_sublist
    refine hs.sorted hcmp (hrest.congr fun x hx => ?_)
    exact update_of_ne (fun he => h.rep.nodup.not_mem_erase (he ▸ hx)) _ _
  · exact (hf q hq).congr rfl (update_of_ne hqp _ _) rfl fun _ _ _ => rfl

/-- An operation that is enabled succeeds. -/
theorem apply_stepped {a : Action P K A} (ha : a.Enabled s) (hfuel : s.fuel ≤ fuel) :
    ∃ t' T', a.apply cb fuel s.tree = some t' ∧ Stepped cb s ⟨t', a.live s.live⟩ T T' (FreshRoot cb s a) := by
  cases a with
  | insert p k v => exact insert_stepped cb h ha hfuel
  | remove p => exact remove_stepped cb h ha hfuel
  | fix p k => exact fix_stepped cb h ha hfuel

end

theorem step_stepped {s' : State P K A} (h : Shape s T) {a : Action P K A}
    (hs : step cb s a = some s') : ∃ T', Stepped cb s s' T T' (FreshRoot cb s a) := by
  unfold step at hs
  split at hs
  · rename_i ha
    obtain ⟨t', T', ht', hst⟩ := apply_stepped cb h ha (Nat.le_refl s.fuel)
    rw [ht'] at hs
    cases hs
    exact ⟨T', hst⟩
  · cases hs

omit [DecidableEq P] in
theorem shape_init (key : P → K) (aug : P → A) : Shape (init key aug) .nil :=
  ⟨⟨rfl, trivial, nodup_nil⟩, ⟨0, .nil⟩, .refl _, fun _ _ => rfl⟩

/-! ## The red-black invariant -/

/-- `compare` is a total preorder. -/
structure Ordered (K A : Type) extends Callbacks K A where
  lawful : IsCompare compare

/-- The tree in memory is a red-black tree of the live nodes in the order of their
keys, and no operation on it fails. -/
structure RedBlack (cb : Callbacks K A) (s : State P K A) : Prop where
  tree : ∃ T n, Rep s.tree T ∧ Sorted cb s.tree.key T.inorder ∧ Valid T .black n ∧ T.inorder.Perm s.live
  succeeds : ∀ a : Action P K A, a.Enabled s → ∀ fuel ≥ s.fuel, (a.apply cb fuel s.tree).isSome

theorem red_black_always (cb : Ordered K A) (key : P → K) (aug : P → A) (as : List (Action P K A)) :
    Always (step cb.toCallbacks) (RedBlack cb.toCallbacks) (init key aug) as := by
  have hinv : Always (step cb.toCallbacks)
      (fun s => ∃ T, Shape s T ∧ Sorted cb.toCallbacks s.tree.key T.inorder) (init key aug) as := by
    refine always_of_step ?_ ⟨.nil, shape_init key aug, List.Pairwise.nil⟩ as
    rintro s a s' ⟨T, hT, hsort⟩ hs
    obtain ⟨T', hst⟩ := step_stepped hT hs
    exact ⟨T', hst.shape, hst.sorted cb.lawful hsort⟩
  refine hinv.mono fun s ⟨T, hT, hsort⟩ => ⟨?_, fun a ha fuel hfuel => ?_⟩
  · obtain ⟨n, hn⟩ := hT.valid
    exact ⟨T, n, hT.rep, hsort, hn, hT.live⟩
  · obtain ⟨t', T', ht', -⟩ := apply_stepped cb.toCallbacks hT ha hfuel
    rw [ht']
    rfl

/-! ## The augmented values -/

/-- Every node of the tree holds the value that `update` would compute for it, and
no operation fails. -/
structure Augmented (cb : Callbacks K A) (s : State P K A) : Prop where
  fresh : ∃ T, Rep s.tree T ∧ T.inorder.Perm s.live ∧ ∀ q ∈ T.inorder, Fresh cb s.tree q
  succeeds : ∀ a : Public P K A, a.Enabled s → ∀ fuel ≥ s.fuel, (a.apply cb fuel s.tree).isSome

/-- The condition on the operations of a run. -/
def Public.FreshRoot (cb : Callbacks K A) (s : State P K A) : Public P K A → Prop
  | .op a => RbTree.FreshRoot cb s a
  | .swap _ _ => True

theorem swap_stepped (cb : Callbacks K A) (h : Shape s T) {a b : P} (ha : a ∈ s.live)
    (hb : b ∈ s.live) (hfuel : s.fuel ≤ fuel) :
    ∃ t' T', rbtree_swap cb fuel s.tree a b = some t' ∧ Shape ⟨t', s.live⟩ T' ∧
      ((∀ q ∈ T.inorder, Fresh cb s.tree q) → ∀ q ∈ T'.inorder, Fresh cb t' q) := by
  rcases eq_or_ne a b with rfl | hne
  · refine ⟨s.tree, T, ?_, h, fun hf => hf⟩
    simp [rbtree_swap]
  · obtain ⟨n, hn⟩ := h.valid
    obtain ⟨t', T', ht', hs⟩ :=
      swap_spec cb h.rep (h.live.mem_iff.2 ha) (h.live.mem_iff.2 hb) hne (Nat.lt_of_succ_lt (h.lt_fuel hfuel))
    refine ⟨t', T', ht', ⟨hs.rep, ⟨n, hs.valid _ _ hn⟩, hs.perm.trans h.live, fun q hq => ?_⟩,
      fun hf => hs.fresh fun q hq _ _ => hf q hq⟩
    rw [hs.out q fun hm => hq (h.live.mem_iff.1 hm)]
    exact h.out q hq

theorem public_stepped (cb : Callbacks K A) (h : Shape s T) {a : Public P K A}
    (ha : a.Enabled s) (hfuel : s.fuel ≤ fuel) :
    ∃ t' T', a.apply cb fuel s.tree = some t' ∧ Shape ⟨t', a.live s.live⟩ T' ∧
      ((∀ q ∈ T.inorder, Fresh cb s.tree q) → a.FreshRoot cb s → ∀ q ∈ T'.inorder, Fresh cb t' q) := by
  cases a with
  | op a =>
    obtain ⟨t', T', ht', hst⟩ := apply_stepped cb h ha hfuel
    exact ⟨t', T', ht', hst.shape, hst.fresh⟩
  | swap a b =>
    obtain ⟨t', T', ht', hshape, hfresh⟩ := swap_stepped cb h ha.1 ha.2 hfuel
    exact ⟨t', T', ht', hshape, fun hf _ => hfresh hf⟩

theorem publicStep_stepped {s' : State P K A} (h : Shape s T) {a : Public P K A} (hs : publicStep cb s a = some s') :
    ∃ T', Shape s' T' ∧ ((∀ q ∈ T.inorder, Fresh cb s.tree q) → a.FreshRoot cb s →
      ∀ q ∈ T'.inorder, Fresh cb s'.tree q) := by
  unfold publicStep at hs
  split at hs
  · rename_i ha
    obtain ⟨t', T', ht', hst⟩ := public_stepped cb h ha (Nat.le_refl s.fuel)
    rw [ht'] at hs
    cases hs
    exact ⟨T', hst⟩
  · cases hs

/-- Into the empty tree a node is inserted as it is. -/
theorem insert_empty (cb : Callbacks K A) (fuel : Nat) {t : rbtree_t P K A} (hroot : t.root = none)
    (hp : t.node p = {}) :
    ∃ t', rbtree_insert cb (fuel + 1) t p = some t' ∧ t'.aug = t.aug ∧ t'.key = t.key ∧
      (t'.node p).children = fun _ => none := by
  refine ⟨_, by simp [rbtree_insert, require, hp, hroot, rbtree_insert_descend, rbtree_insert_at]; rfl, ?_⟩
  simp only [rbtree_t.blackenRoot, node_setColor_self, node_setParent_self, hp]
  exact ⟨rfl, rfl, trivial⟩

/-- The values are right in every state of a run, exactly if every node that is
inserted into the empty tree carries the value of a leaf. -/
theorem augmented_iff_fresh_root (cb : Callbacks K A) (key : P → K) (aug : P → A) (as : List (Public P K A)) :
    Always (publicStep cb) (Augmented cb) (init key aug) as ↔
      Along (publicStep cb) (Public.FreshRoot cb) (init key aug) as := by
  constructor
  · refine Always.along (I := fun s => ∃ T, Shape s T) ?_ ?_ ⟨.nil, shape_init key aug⟩
    · rintro s a s' ⟨T, hT⟩ - hs
      obtain ⟨T', hT', -⟩ := publicStep_stepped hT hs
      exact ⟨T', hT'⟩
    · rintro s a ⟨T, hT⟩ - hok
      -- Only an insertion into the empty tree breaks the condition.
      obtain ⟨p, k, v, rfl⟩ : ∃ p k v, a = .op (.insert p k v) := by
        cases a with
        | op a =>
          cases a with
          | insert p k v => exact ⟨p, k, v, rfl⟩
          | _ => exact absurd trivial hok
        | swap _ _ => exact absurd trivial hok
      simp only [Public.FreshRoot, FreshRoot, Classical.not_imp, not_forall] at hok
      obtain ⟨hl, f, hf, hv⟩ := hok
      have hp : p ∉ s.live := by rw [hl]; exact not_mem_nil
      have hroot : s.tree.root = none := by
        have hnil : T.inorder = [] := perm_nil.1 (hl ▸ hT.live)
        rw [hT.rep.root]
        cases T with
        | nil => rfl
        | node c l q r => simp at hnil
      obtain ⟨t', ht', haug, hkey, hch⟩ := insert_empty cb (s.live.length + 1)
        (t := { s.tree with key := update s.tree.key p k, aug := update s.tree.aug p v }) hroot
        (hT.out p hp)
      refine ⟨⟨t', p :: s.live⟩, ?_, ?_⟩
      · rw [publicStep, if_pos (show Public.Enabled s (.op (.insert p k v)) from hp)]
        exact congrArg (Option.map _) ht'
      · rintro ⟨⟨T', -, hlive, hfresh⟩, -⟩
        have := hfresh p (hlive.mem_iff.2 mem_cons_self) f hf
        rw [hch, haug, hkey] at this
        simp only [update_self, Option.map_none] at this
        exact hv this
  · intro h
    have hinv := h.always (I := fun s => ∃ T, Shape s T ∧ ∀ q ∈ T.inorder, Fresh cb s.tree q) ?_
      ⟨.nil, shape_init key aug, fun q hq => by cases hq⟩
    · refine hinv.mono ?_
      rintro s ⟨T, hT, hf⟩
      refine ⟨⟨T, hT.rep, hT.live, hf⟩, fun a ha fuel hfuel => ?_⟩
      obtain ⟨t', T', ht', -⟩ := public_stepped cb hT ha hfuel
      rw [ht']
      rfl
    · rintro s a s' ⟨T, hT, hf⟩ hok hs
      obtain ⟨T', hT', hfresh⟩ := publicStep_stepped hT hs
      exact ⟨T', hT', hfresh hf hok⟩

/-- The size of the subtree as the augmented value. -/
def sizes : Callbacks Int Nat where
  compare a b := a - b
  update := some fun _ l r => l.getD 0 + r.getD 0 + 1

/-- A node that carries 7 becomes the root of a tree of one node, and keeps it. -/
theorem stale_root : ¬ Always (publicStep sizes) (Augmented sizes) (init (fun _ => 0) fun _ => 0)
    [Public.op (.insert (0 : Nat) 5 7)] := by
  refine not_always (fun s => s.live = [0] ∧ s.tree.aug 0 = 7 ∧ (s.tree.node 0).children .left = none ∧
    (s.tree.node 0).children .right = none) (by decide) ?_
  rintro s ⟨hl, haug, hleft, hright⟩ h
  obtain ⟨T, -, hlive, hfresh⟩ := h.fresh
  have hroot := hfresh 0 (hlive.mem_iff.2 (by simp [hl])) _ rfl
  rw [haug, hleft, hright] at hroot
  cases hroot

end Patchwork.RbTree
