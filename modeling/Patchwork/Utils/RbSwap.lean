import Mathlib.Logic.Equiv.Basic
import Patchwork.Utils.RbInsert
/-!
# Swapping two nodes

`rbtree_swap` exchanges two nodes by their pointers, so that each takes the
place, the children and the colour of the other: the tree is the old one with
the two names exchanged. There is one exception. When the two are siblings and
the first one is the right child, the two writes to their parent undo each
other, and what is exchanged is their children.
-/

namespace Patchwork.RbTree

open List Option Lib.RedBlack CTree Ctx

variable {P K A : Type}

/-! ## Pointers of a tree in memory -/

section links
variable {t : rbtree_t P K A} {T : CTree P} {q r : P} {d : Dir} (h : Rep t T) (hq : q ∈ T.inorder)
include h hq

theorem Rep.child (hc : (t.node q).children d = some r) : r ∈ T.inorder ∧ (t.node r).parent = some q :=
  (h.mem.parent_of_child hq hc).symm

theorem Rep.parent (hp : (t.node q).parent = some r) : r ∈ T.inorder ∧ ∃ d, (t.node r).children d = some q := by
  obtain ⟨C, c, L, R, rfl⟩ := exists_plug hq
  obtain ⟨hC, hT⟩ := h.plug
  rw [hT.1] at hp
  cases C with
  | top => cases hp
  | step d c p sib up =>
    cases hp
    exact ⟨(perm_inorder_plug _ _).mem_iff.2 (mem_append_right _ (parent_mem rfl)), d, hC.2.1⟩

theorem Rep.parent_none : (t.node q).parent = none ↔ t.root = some q := by
  obtain ⟨C, c, L, R, rfl⟩ := exists_plug hq
  obtain ⟨hC, hT⟩ := h.plug
  rw [hT.1]
  cases C with
  | top => exact ⟨fun _ => hC, fun _ => rfl⟩
  | step d c p sib up =>
    refine ⟨nofun, fun hr => ?_⟩
    -- The root has no parent, and it is not below `p`.
    have hroot := h.root
    rw [hr] at hroot
    obtain ⟨c', l', r', he⟩ := exists_of_root hroot.symm
    have hm := h.mem
    rw [he] at hm
    exact (hT.1.symm.trans hm.1).symm ▸ rfl

theorem Rep.children_ne (hc : (t.node q).children d = some r) : (t.node q).children d.opp ≠ some r := by
  obtain ⟨C, c, L, R, rfl⟩ := exists_plug hq
  obtain ⟨a, b, hab⟩ := node_eq_bin d c L q R
  rw [hab] at h
  obtain ⟨-, h2, h3, -⟩ := repT_bin.1 h.plug.2
  rw [h2] at hc
  rw [h3]
  exact fun hr => (nodup_bin (nodup_of_plug h.nodup)).2.2.2.2 r (root_mem hc) (root_mem hr)

theorem Rep.acyclic (hp : (t.node q).parent = some r) : r ≠ q ∧ (t.node r).parent ≠ some q := by
  obtain ⟨C, c, L, R, rfl⟩ := exists_plug hq
  obtain ⟨hC, hT⟩ := h.plug
  have hr : r ∈ C.nodes := parent_mem (hT.1.symm.trans hp)
  constructor
  · rintro rfl
    exact disjoint_of_nodup h.nodup (root_mem rfl) hr
  · intro hrq
    obtain ⟨d, hd⟩ := (h.parent ((perm_inorder_plug _ _).mem_iff.2 (mem_append_right _ hr)) hrq).2
    exact disjoint_of_nodup h.nodup (hT.parent_of_child (root_mem rfl) hd).2 hr

end links

/-- What the pointers of a tree are like, without its colours. -/
structure Links (t : rbtree_t P K A) (T : CTree P) : Prop where
  child : ∀ x y d, x ∈ T.inorder → (t.node x).children d = some y → y ∈ T.inorder ∧ (t.node y).parent = some x
  parent : ∀ x y, x ∈ T.inorder → (t.node x).parent = some y →
    y ∈ T.inorder ∧ ((t.node y).children .left = some x ∨ (t.node y).children .right = some x)
  acyclic : ∀ x y, x ∈ T.inorder → (t.node x).parent = some y → y ≠ x ∧ (t.node y).parent ≠ some x
  ne : ∀ x y, x ∈ T.inorder → (t.node x).children .left = some y → (t.node x).children .right ≠ some y
  root : ∀ x, x ∈ T.inorder → ((t.node x).parent = none ↔ t.root = some x)

variable {t : rbtree_t P K A} {T : CTree P}

theorem Rep.links (h : Rep t T) : Links t T where
  child x y d hx hc := h.child hx hc
  parent x y hx hp := by
    obtain ⟨hy, d, hd⟩ := h.parent hx hp
    cases d with
    | left => exact ⟨hy, .inl hd⟩
    | right => exact ⟨hy, .inr hd⟩
  acyclic x y hx hp := h.acyclic hx hp
  ne x y hx hc := h.children_ne hx hc
  root x hx := h.parent_none hx

/-! ## Renaming in memory -/

/-- The fields of a node after renaming, with its children exchanged if `x`. -/
def rbnode_t.relabel (f : P → P) (x : Bool) (r : rbnode_t P) : rbnode_t P where
  parent := r.parent.map f
  children d := (r.children (if x then d.opp else d)).map f
  color := r.color

theorem RepT.relabel {h h' : P → rbnode_t P} {par : Option P} {f : P → P} {x : P → Bool} (hr : RepT h par T)
    (heq : ∀ q ∈ T.inorder, h' (f q) = (h q).relabel f (x q)) : RepT h' (par.map f) (T.relabel f x) := by
  induction T generalizing par with
  | nil => trivial
  | node c l p r ihl ihr =>
    obtain ⟨h1, h2, h3, h4, h5, h6⟩ := hr
    simp only [inorder, mem_append, mem_cons] at heq
    have hp := heq p (by simp)
    refine repT_bin.2 ⟨?_, ?_, ?_, ?_, ?_, ?_⟩
    · rw [hp, rbnode_t.relabel, h1]
    · rw [hp, root_relabel, ← h2]
      cases x p <;> rfl
    · rw [hp, root_relabel, ← h3]
      cases x p <;> rfl
    · rw [hp]
      exact h4
    · exact ihl h5 fun q hq => heq q (.inl hq)
    · exact ihr h6 fun q hq => heq q (.inr (.inr hq))

variable {q : P}

theorem RepT.children_relabel {h h' : P → rbnode_t P} {par par' : Option P} {f : P → P} {x : P → Bool}
    (hr : RepT h par T) (hr' : RepT h' par' (T.relabel f x)) (hq : q ∈ T.inorder) (d : Dir) :
    (h' (f q)).children d = ((h q).children (if x q then d.opp else d)).map f := by
  induction T generalizing par par' with
  | nil => cases hq
  | node c l p r ihl ihr =>
    obtain ⟨-, h2, h3, -, h5, h6⟩ := hr
    obtain ⟨-, g2, g3, -, g5, g6⟩ := repT_bin.1 hr'
    rcases mem_inorder_node.1 hq with hq | rfl | hq
    · exact ihl h5 g5 hq
    · rw [root_relabel, ← h2] at g2
      rw [root_relabel, ← h3] at g3
      cases hx : x q <;> cases d <;> simp_all [Dir.opp]
    · exact ihr h6 g6 hq

variable [DecidableEq P]

/-- Exchange the names `a` and `b`. -/
def exchange (a b q : P) : P := if q = a then b else if q = b then a else q

variable {l r : List P}

section exchange
variable {a b q : P}

theorem exchange_left : exchange a b a = b := if_pos rfl

theorem exchange_right : exchange a b b = a := Equiv.swap_apply_right a b

theorem exchange_of_ne (ha : q ≠ a) (hb : q ≠ b) : exchange a b q = q := Equiv.swap_apply_of_ne_of_ne ha hb

theorem exchange_exchange : exchange a b (exchange a b q) = q := Equiv.swap_apply_self a b q

theorem exchange_comm : exchange a b = exchange b a := congrArg DFunLike.coe (Equiv.swap_comm a b)

theorem exchange_mem (ha : a ∈ l) (hb : b ∈ l) (hq : q ∈ l) : exchange a b q ∈ l := by
  unfold exchange
  split
  · exact hb
  · split
    · exact ha
    · exact hq

theorem perm_map_exchange (hl : l.Nodup) (ha : a ∈ l) (hb : b ∈ l) : (l.map (exchange a b)).Perm l := by
  refine (perm_ext_iff_of_nodup (hl.map (Equiv.swap a b).injective) hl).2 fun q => ?_
  rw [List.mem_map]
  constructor
  · rintro ⟨x, hx, rfl⟩
    exact exchange_mem ha hb hx
  · exact fun hq => ⟨exchange a b q, exchange_mem ha hb hq, exchange_exchange⟩

/-- Exchanging neighbours in a list without repetitions. -/
theorem map_exchange_adjacent (h : (l ++ a :: b :: r).Nodup) :
    (l ++ a :: b :: r).map (exchange a b) = l ++ b :: a :: r := by
  simp only [nodup_append, nodup_cons, mem_cons, not_or] at h
  obtain ⟨-, ⟨⟨-, har⟩, hbr, -⟩, hl⟩ := h
  have hfix : ∀ s : List P, (∀ x ∈ s, x ≠ a ∧ x ≠ b) → s.map (exchange a b) = s := fun s hs =>
    (map_congr_left fun x hx => exchange_of_ne (hs x hx).1 (hs x hx).2).trans (map_id _)
  rw [map_append, map_cons, map_cons, exchange_left, exchange_right, hfix l, hfix r]
  · exact fun x hx => ⟨fun he => har (he ▸ hx), fun he => hbr (he ▸ hx)⟩
  · exact fun x hx => ⟨hl x hx a (.inl rfl), hl x hx b (.inr (.inl rfl))⟩

theorem map_exchange_of_ne {o : Option P} (ha : o ≠ some a) (hb : o ≠ some b) : o.map (exchange a b) = o := by
  cases o with
  | none => rfl
  | some q => exact congrArg some (exchange_of_ne (fun h => ha (h ▸ rfl)) fun h => hb (h ▸ rfl))

end exchange

/-! ## Reading after a write -/

section reads
variable (t : rbtree_t P K A) (p q : P) (d e : Dir) (o v : Option P) (c : Color)

@[simp] theorem parent_setParent : ((t.setParent p v).node q).parent = if q = p then v else (t.node q).parent := by
  by_cases h : q = p
  · simp [h]
  · simp [h]

@[simp] theorem parent_setParentOf : ((t.setParentOf o v).node q).parent = if o = some q then v else (t.node q).parent := by
  rw [node_setParentOf]
  split <;> rfl

@[simp] theorem frame_setParent : ((t.setParent p v).node q).children = (t.node q).children ∧
    ((t.setParent p v).node q).color = (t.node q).color := by
  by_cases h : q = p
  · simp [h]
  · simp [h]

@[simp] theorem frame_setParentOf : ((t.setParentOf o v).node q).children = (t.node q).children ∧
    ((t.setParentOf o v).node q).color = (t.node q).color := by
  rw [node_setParentOf]
  split <;> exact ⟨rfl, rfl⟩

@[simp] theorem frame_setChild : ((t.setChild p d v).node q).parent = (t.node q).parent ∧
    ((t.setChild p d v).node q).color = (t.node q).color := by
  by_cases h : q = p
  · simp [h]
  · simp [h]

@[simp] theorem frame_setLink : ((t.setLink o d p v).node q).parent = (t.node q).parent ∧
    ((t.setLink o d p v).node q).color = (t.node q).color := by
  unfold rbtree_t.setLink
  cases o with
  | none => exact ⟨rfl, rfl⟩
  | some r => dsimp only; split <;> exact frame_setChild _ _ _ _ _

@[simp] theorem children_setChild : ((t.setChild p d v).node q).children e =
    if q = p ∧ e = d then v else (t.node q).children e := by
  by_cases h : q = p
  · subst h
    by_cases he : e = d
    · simp [he]
    · simp [he]
  · simp [h]

theorem children_setLink : ((t.setLink o d p v).node q).children e =
    if o = some q ∧ ((t.node q).children d = some p ↔ e = d) then v else (t.node q).children e := by
  unfold rbtree_t.setLink
  cases o with
  | none => simp
  | some r =>
    dsimp only
    by_cases hqr : q = r
    · subst hqr
      by_cases hd : (t.node q).children d = some p
      · simp [hd, Function.update_apply]
      · rcases d.eq_or_opp e with rfl | rfl
        · simp [hd]
        · simp [hd]
    · have hrq : r ≠ q := Ne.symm hqr
      split <;> simp [hqr, hrq]

@[simp] theorem root_setParent : (t.setParent p v).root = t.root := rfl

@[simp] theorem root_setChild : (t.setChild p d v).root = t.root := rfl

@[simp] theorem root_setParentOf : (t.setParentOf o v).root = t.root := by
  cases o <;> rfl

@[simp] theorem root_setLink : (t.setLink o d p v).root = if o = none then v else t.root := by
  unfold rbtree_t.setLink
  cases o with
  | none => rfl
  | some r => dsimp only; split <;> rfl

theorem key_setLink : (t.setLink o d p v).key = t.key ∧ (t.setLink o d p v).aug = t.aug := by
  unfold rbtree_t.setLink
  cases o with
  | none => exact ⟨rfl, rfl⟩
  | some r => dsimp only; split <;> exact ⟨rfl, rfl⟩

end reads

/-! ## The pointers of a swap -/

/-- The node has `b` as its left and `a` as its right child. -/
def siblingsOf (t : rbtree_t P K A) (a b q : P) : Bool :=
  (t.node q).children .left = some b ∧ (t.node q).children .right = some a

variable {a b : P}

theorem siblingsOf_eq_false : siblingsOf t a b q = false ↔
    ¬((t.node q).children .left = some b ∧ (t.node q).children .right = some a) := decide_eq_false_iff_not

/-- The pointer writes of `rbtree_swap`. -/
def swapPointers (t : rbtree_t P K A) (a b : P) : rbtree_t P K A :=
  if (t.node b).parent = some a then rbtree_swap_child t a b else rbtree_swap_apart t a b

section pointers
variable {t : rbtree_t P K A} {T : CTree P} (h : Links t T) {a b : P} (ha : a ∈ T.inorder) (hb : b ∈ T.inorder)
  {q : P} (hq : q ∈ T.inorder)
include h ha hb hq

theorem swap_parent (hne : a ≠ b) (hab : (t.node a).parent ≠ some b) :
    ((swapPointers t a b).node (exchange a b q)).parent = (t.node q).parent.map (exchange a b) := by
  obtain ⟨h1, h2, h3, h4, -⟩ := h
  unfold swapPointers
  split
  all_goals
    simp only [rbtree_swap_child, rbtree_swap_apart, parent_setParent, parent_setParentOf, frame_setChild,
      frame_setLink]
    rcases eq_or_ne q a with rfl | hqa
    · rw [exchange_left, map_exchange_of_ne (by grind) hab]
      grind [Dir.opp]
    rw [exchange, if_neg hqa]
    by_cases hpa : (t.node q).parent = some a
    · rw [hpa, map_some, exchange_left]
      grind [Dir.opp]
    by_cases hpb : (t.node q).parent = some b
    · rw [hpb, map_some, exchange_right]
      grind [Dir.opp]
    rw [map_exchange_of_ne hpa hpb]
    grind [Dir.opp]

theorem swap_child_children (hba : (t.node b).parent = some a) (d : Dir) :
    ((rbtree_swap_child t a b).node (exchange a b q)).children d =
      ((t.node q).children d).map (exchange a b) := by
  simp only [rbtree_swap_child, frame_setParent, frame_setParentOf, children_setChild, children_setLink]
  obtain ⟨h1, h2, h3, h4, -⟩ := h
  obtain ⟨e, he, hab⟩ : ∃ e, (if (t.node a).children .right = some b then Dir.right else .left) = e ∧
      (t.node a).children e = some b := by grind
  rcases eq_or_ne q a with rfl | hqa
  · rw [exchange_left]
    rcases e.eq_or_opp d with rfl | rfl
    · rw [hab, map_some, exchange_right]
      grind [Dir.ne_opp]
    · rw [map_exchange_of_ne (by grind) (by cases e <;> grind [Dir.opp])]
      grind
  rcases eq_or_ne q b with rfl | hqb
  · rw [exchange_right, map_exchange_of_ne (by grind) (by grind)]
    cases d <;> grind
  rw [exchange_of_ne hqa hqb]
  by_cases hda : (t.node q).children d = some a
  · rw [hda, map_some, exchange_left]
    cases d <;> grind
  · rw [map_exchange_of_ne hda (by grind)]
    cases d <;> grind

theorem swap_apart_children (hne : a ≠ b) (hba : (t.node b).parent ≠ some a) (hab : (t.node a).parent ≠ some b)
    (d : Dir) : ((rbtree_swap_apart t a b).node (exchange a b q)).children d =
      ((t.node q).children (if siblingsOf t a b q then d.opp else d)).map (exchange a b) := by
  simp only [rbtree_swap_apart, frame_setParent, frame_setParentOf, children_setChild, children_setLink]
  obtain ⟨h1, h2, h3, h4, -⟩ := h
  have hnsib : ∀ x ∈ T.inorder, x = a ∨ x = b → siblingsOf t a b x = false := by
    intro x hx hxab
    rw [siblingsOf_eq_false]
    grind
  rcases eq_or_ne q a with rfl | hqa
  · rw [exchange_left, hnsib q hq (.inl rfl), map_exchange_of_ne (by grind) (by grind)]
    cases d <;> grind
  rcases eq_or_ne q b with rfl | hqb
  · rw [exchange_right, hnsib q hq (.inr rfl), map_exchange_of_ne (by grind) (by grind)]
    cases d <;> grind
  rw [exchange_of_ne hqa hqb]
  by_cases hsib : siblingsOf t a b q = true
  · -- Both pointers of the parent are written, the second time to what they were.
    rw [if_pos hsib]
    simp only [siblingsOf, decide_eq_true_eq] at hsib
    cases d with
    | left =>
      rw [Dir.opp, hsib.2, map_some, exchange_left]
      grind
    | right =>
      rw [Dir.opp, hsib.1, map_some, exchange_right]
      grind
  · rw [if_neg hsib]
    simp only [siblingsOf, decide_eq_true_eq] at hsib
    by_cases hda : (t.node q).children d = some a
    · rw [hda, map_some, exchange_left]
      cases d <;> grind
    by_cases hdb : (t.node q).children d = some b
    · rw [hdb, map_some, exchange_right]
      cases d <;> grind
    rw [map_exchange_of_ne hda hdb]
    cases d <;> grind

omit hq

theorem swap_root : (swapPointers t a b).root = t.root.map (exchange a b) := by
  have hroot : (swapPointers t a b).root =
      if (t.node a).parent = none then some b else if (t.node b).parent = none then some a else t.root := by
    unfold swapPointers
    split
    · rename_i hba
      simp [rbtree_swap_child, hba]
    · simp only [rbtree_swap_apart, root_setParent, root_setParentOf, root_setChild, root_setLink]
  rw [hroot]
  by_cases hp : (t.node a).parent = none
  · rw [if_pos hp, (h.root a ha).1 hp, map_some, exchange_left]
  · rw [if_neg hp]
    by_cases hp' : (t.node b).parent = none
    · rw [if_pos hp', (h.root b hb).1 hp', map_some, exchange_right]
    · rw [if_neg hp', map_exchange_of_ne (fun hr => hp ((h.root a ha).2 hr)) fun hr => hp' ((h.root b hb).2 hr)]

/-- After the writes each of the two has the fields of the other, and the
pointers to them are exchanged. -/
theorem swapPointers_relabel (hne : a ≠ b) (hab : (t.node a).parent ≠ some b) :
    (swapPointers t a b).root = t.root.map (exchange a b) ∧
      ∀ q ∈ T.inorder, (swapPointers t a b).node (exchange a b q) =
        { (t.node q).relabel (exchange a b) (siblingsOf t a b q) with color := (t.node (exchange a b q)).color } := by
  refine ⟨swap_root h ha hb, fun q hq => rbnode_t.ext (swap_parent h ha hb hq hne hab) (funext fun d => ?_) ?_⟩
  · unfold swapPointers
    by_cases hba : (t.node b).parent = some a
    · have hsib : siblingsOf t a b q = false := by
        rw [siblingsOf_eq_false]
        rintro ⟨h1, h2⟩
        obtain rfl := Option.some.inj ((h.child _ _ _ hq h1).2.symm.trans hba)
        exact (h.acyclic _ _ ha (h.child _ _ _ hq h2).2).1 rfl
      rw [if_pos hba, hsib]
      exact swap_child_children h ha hb hq hba d
    · rw [if_neg hba]
      exact swap_apart_children h ha hb hq hne hba hab d
  · unfold swapPointers
    split <;> simp [rbtree_swap_child, rbtree_swap_apart]

theorem swapPointers_out (hq : q ∉ T.inorder) : (swapPointers t a b).node q = t.node q := by
  have hqa : q ≠ a := fun he => hq (he ▸ ha)
  have hqb : q ≠ b := fun he => hq (he ▸ hb)
  have hpa : (t.node a).parent ≠ some q := fun hp => hq (h.parent _ _ ha hp).1
  have hpb : (t.node b).parent ≠ some q := fun hp => hq (h.parent _ _ hb hp).1
  have hca : ∀ d, (t.node a).children d ≠ some q := fun d hc => hq (h.child _ _ _ ha hc).1
  have hcb : ∀ d, (t.node b).children d ≠ some q := fun d hc => hq (h.child _ _ _ hb hc).1
  unfold swapPointers
  refine rbnode_t.ext ?_ (funext fun d => ?_) ?_
  · split <;> simp [rbtree_swap_child, rbtree_swap_apart, hqa, hqb, hca, hcb]
  · split <;> simp [rbtree_swap_child, rbtree_swap_apart, children_setLink, hqa, hqb, hpa, hpb]
  · split <;> simp [rbtree_swap_child, rbtree_swap_apart]

end pointers

/-! ## The swap -/

/-- What `rbtree_swap` does, for neighbours in the order in particular. The
values of the two nodes themselves may have been stale. -/
structure Swapped (cb : Callbacks K A) (t t' : rbtree_t P K A) (T T' : CTree P) (a b : P) : Prop where
  rep : Rep t' T'
  tree : T' = T.relabel (exchange a b) (siblingsOf t a b)
  key : t'.key = t.key
  perm : T'.inorder.Perm T.inorder
  out : ∀ q, q ∉ T.inorder → t'.node q = t.node q
  valid : ∀ c n, Valid T c n → Valid T' c n
  fresh : (∀ q ∈ T.inorder, q ≠ a → q ≠ b → Fresh cb t q) → ∀ q ∈ T'.inorder, Fresh cb t' q
  after : ∀ l r, T.inorder = l ++ a :: b :: r → T'.inorder = l ++ b :: a :: r
  before : ∀ l r, T.inorder = l ++ b :: a :: r → T'.inorder = l ++ a :: b :: r
  childless : ∀ d, ((t.node b).children d = none → (t'.node a).children d = none) ∧
    ((t.node a).children d = none → (t'.node b).children d = none)

theorem Swapped.symm {cb : Callbacks K A} {t' : rbtree_t P K A} {T' : CTree P}
    (h : Swapped cb t t' T T' a b) (hs : ∀ q ∈ T.inorder, siblingsOf t a b q = siblingsOf t b a q) :
    Swapped cb t t' T T' b a :=
  { h with
    tree := by rw [h.tree, exchange_comm, relabel_congr _ hs]
    fresh := fun hf => h.fresh fun q hq ha hb => hf q hq hb ha
    after := h.before
    before := h.after
    childless := fun d => (h.childless d).symm }

/-- Siblings are not neighbours: their parent is between them. -/
theorem not_siblings (h : Rep t T)
    (hadj : T.inorder = l ++ a :: b :: r ∨ T.inorder = l ++ b :: a :: r) (hq : q ∈ T.inorder) :
    siblingsOf t a b q = false := by
  rw [siblingsOf_eq_false]
  rintro ⟨hb, ha⟩
  have hplace : ∀ {u v x}, T.inorder = u ++ x :: v → T.inorder.idxOf x = u.length := by
    intro u v x he
    have hdis := disjoint_of_nodup_append (he ▸ h.nodup)
    rw [he, idxOf_append_of_notMem fun hx => hdis hx mem_cons_self, idxOf_cons_self, Nat.add_zero]
  obtain ⟨C, c, L, R, rfl⟩ := exists_plug hq
  obtain ⟨-, h2, h3, -⟩ := h.plug.2
  obtain ⟨L1, L2, hL⟩ := append_of_mem (root_mem (h2.symm.trans hb))
  obtain ⟨R1, R2, hR⟩ := append_of_mem (root_mem (h3.symm.trans ha))
  have hplaceB := hplace (show _ = C.before ++ L1 ++ b :: (L2 ++ q :: (R.inorder ++ C.after)) by
    simp [hL])
  have hplaceA := hplace (show _ = C.before ++ L1 ++ b :: (L2 ++ q :: R1) ++ a :: (R2 ++ C.after) by
    simp [hL, hR])
  simp only [length_append, length_cons] at hplaceA hplaceB
  rcases hadj with hl | hl
  all_goals
    have h4 := hplace hl
    have h5 := hplace (hl.trans (append_cons ..))
    simp only [length_append, length_singleton] at h5
    omega

/-- The colours of `a` and `b` exchanged, and nothing else. -/
structure Recolored (t t0 : rbtree_t P K A) (a b : P) : Prop where
  root : t0.root = t.root
  parent : ∀ q, (t0.node q).parent = (t.node q).parent
  children : ∀ q, (t0.node q).children = (t.node q).children
  color : ∀ q, (t0.node (exchange a b q)).color = (t.node q).color
  out : ∀ q, q ≠ a → q ≠ b → t0.node q = t.node q
  key : t0.key = t.key
  aug : t0.aug = t.aug

variable {t0 : rbtree_t P K A}

theorem Recolored.links (h : Recolored t t0 a b) (hl : Links t T) : Links t0 T := by
  obtain ⟨h1, h2, h3, h4, h5⟩ := hl
  constructor <;> simp only [h.parent, h.children, h.root] <;> assumption

theorem swapPointers_key (t : rbtree_t P K A) (a b : P) :
    (swapPointers t a b).key = t.key ∧ (swapPointers t a b).aug = t.aug := by
  have hof : ∀ (t : rbtree_t P K A) o v, (t.setParentOf o v).key = t.key ∧ (t.setParentOf o v).aug = t.aug := by
    intro t o v
    cases o <;> exact ⟨rfl, rfl⟩
  unfold swapPointers rbtree_swap_child rbtree_swap_apart
  split <;> simp [hof, key_setLink, rbtree_t.setParent, rbtree_t.setChild]

/-- The pointers and the colours together: the tree with the names exchanged. -/
theorem swapPointers_rep (h : Rep t T) (h0 : Recolored t t0 a b)
    (ha : a ∈ T.inorder) (hb : b ∈ T.inorder) (hne : a ≠ b) (hab : (t.node a).parent ≠ some b) :
    Rep (swapPointers t0 a b) (T.relabel (exchange a b) (siblingsOf t a b)) ∧
      ∀ q ∈ T.inorder, (swapPointers t0 a b).node (exchange a b q) =
        (t.node q).relabel (exchange a b) (siblingsOf t a b q) := by
  obtain ⟨hroot, hnode⟩ := swapPointers_relabel (h0.links h.links) ha hb hne (by rw [h0.parent]; exact hab)
  have heq : ∀ q ∈ T.inorder, (swapPointers t0 a b).node (exchange a b q) =
      (t.node q).relabel (exchange a b) (siblingsOf t a b q) := by
    intro q hq
    have hsib : siblingsOf t0 a b q = siblingsOf t a b q := decide_eq_decide.2 (by rw [h0.children])
    rw [hnode q hq, hsib]
    simp only [rbnode_t.relabel, h0.parent, h0.children, h0.color]
  refine ⟨⟨?_, h.mem.relabel heq, ?_⟩, heq⟩
  · rw [hroot, h0.root, h.root, root_relabel]
  · exact ((perm_inorder_relabel _ _ T).trans (perm_map_exchange h.nodup ha hb)).nodup_iff.2 h.nodup

/-- The two walks of `rbtree_swap` reach every node that has new children. -/
theorem swap_core (cb : Callbacks K A) {fuel : Nat} (h : Rep t T)
    (h0 : Recolored t t0 a b) (ha : a ∈ T.inorder) (hb : b ∈ T.inorder) (hne : a ≠ b)
    (hab : (t.node a).parent ≠ some b) (hfuel : T.inorder.length < fuel) :
    ∃ t' T', ((rbtree_update_to_root cb fuel (swapPointers t0 a b) (some a)).bind fun t =>
      rbtree_update_to_root cb fuel t (some b)) = some t' ∧ Swapped cb t t' T T' a b := by
  obtain ⟨hrep, hnode⟩ := swapPointers_rep h h0 ha hb hne hab
  obtain ⟨hkey, haug⟩ := swapPointers_key t0 a b
  have hout : ∀ q, q ∉ T.inorder → (swapPointers t0 a b).node q = t.node q := fun q hq => by
    rw [swapPointers_out (h0.links h.links) ha hb hq,
      h0.out q (fun he => hq (he ▸ ha)) fun he => hq (he ▸ hb)]
  set T' := T.relabel (exchange a b) (siblingsOf t a b) with hT'
  have hperm : T'.inorder.Perm T.inorder := (perm_inorder_relabel _ _ T).trans (perm_map_exchange h.nodup ha hb)
  obtain ⟨Ca, ca, la, ra, hCa⟩ := exists_plug (hperm.mem_iff.2 ha)
  obtain ⟨Cb, cb', lb, rb, hCb⟩ := exists_plug (hperm.mem_iff.2 hb)
  obtain ⟨t1, ht1, hw1⟩ := update_to_root_spec cb (hCa ▸ hrep) rfl (by rw [← hCa, hperm.length_eq]; exact hfuel)
  rw [← hCa] at hw1
  obtain ⟨t2, ht2, hw2⟩ := update_to_root_spec cb (hCb ▸ hw1.rep) rfl (by rw [← hCb, hperm.length_eq]; exact hfuel)
  rw [← hCb] at hw2
  refine ⟨t2, T', by rw [ht1]; exact ht2, hw2.rep, hT', ?_, hperm, fun q hq => ?_, fun c n hv => hv.relabel _ _,
    fun hf q hq => ?_, fun l r hl => ?_, fun l r hl => ?_, fun d => ?_⟩
  · rw [hw2.key, hw1.key, hkey, h0.key]
  · rw [hw2.node, hw1.node, hout q hq]
  · -- A node off both walks has the children it had.
    have hpath : ∀ (C : Ctx P) c l r x, T' = C.plug (.node c l x r) →
        ∀ d, ((swapPointers t0 a b).node q).children d = some x → q ∈ x :: C.path := by
      intro C c l r x hC d hd
      have hpar := (hC ▸ hrep).plug.2.1
      exact mem_cons_of_mem _ (parent_mem_path (hpar.symm.trans (hrep.child hq hd).2))
    by_cases hqa : q ∈ a :: Ca.path
    · exact hw2.fresh q hq (.inl (hw1.fresh q hq (.inr hqa)))
    by_cases hqb : q ∈ b :: Cb.path
    · exact hw2.fresh q hq (.inr hqb)
    have hqT := hperm.mem_iff.1 hq
    have hq_a : q ≠ a := fun he => hqa (he ▸ mem_cons_self)
    have hq_b : q ≠ b := fun he => hqb (he ▸ mem_cons_self)
    have hn := hnode q hqT
    rw [exchange_of_ne hq_a hq_b] at hn
    have hch : ∀ d x, (t.node q).children d = some x → x ≠ a ∧ x ≠ b := by
      intro d x hd
      have hd' : ∃ e, ((swapPointers t0 a b).node q).children e = some (exchange a b x) := by
        refine ⟨if siblingsOf t a b q then d.opp else d, ?_⟩
        rw [hn]
        cases siblingsOf t a b q <;> simp [rbnode_t.relabel, hd]
      obtain ⟨e, he⟩ := hd'
      constructor
      · rintro rfl
        rw [exchange_left] at he
        exact hqb (hpath Cb _ _ _ b hCb e he)
      · rintro rfl
        rw [exchange_right] at he
        exact hqa (hpath Ca _ _ _ a hCa e he)
    have hsib : siblingsOf t a b q = false := siblingsOf_eq_false.2 fun hs => (hch _ _ hs.1).2 rfl
    refine hw2.fresh q hq (.inl (hw1.fresh q hq (.inl ((hf q hqT hq_a hq_b).congr ?_ ?_ ?_ ?_))))
    · rw [hn, hsib]
      exact funext fun d => map_exchange_of_ne (fun hd => (hch d _ hd).1 rfl) fun hd => (hch d _ hd).2 rfl
    · rw [hkey, h0.key]
    · rw [haug, h0.aug]
    · intro d c _
      rw [haug, h0.aug]
  · rw [hT', inorder_relabel _ fun q hq => not_siblings h (.inl hl) hq, hl, map_exchange_adjacent (hl ▸ h.nodup)]
  · rw [hT', inorder_relabel _ fun q hq => not_siblings h (.inr hl) hq, hl, exchange_comm,
      map_exchange_adjacent (hl ▸ h.nodup)]
  · have hself : ∀ {x} {e : Dir}, x ∈ T.inorder → (t.node x).children e ≠ some x :=
      fun hx hc => (h.acyclic hx (h.child hx hc).2).1 rfl
    have hsa : siblingsOf t a b a = false := siblingsOf_eq_false.2 fun hs => hself ha hs.2
    have hsb : siblingsOf t a b b = false := siblingsOf_eq_false.2 fun hs => hself hb hs.1
    have hna := hnode a ha
    have hnb := hnode b hb
    rw [exchange_left, hsa] at hna
    rw [exchange_right, hsb] at hnb
    rw [hw2.node, hw1.node, hna, hnb]
    exact ⟨fun hd => congrArg (Option.map (exchange a b)) hd, fun hd => congrArg (Option.map (exchange a b)) hd⟩

theorem linked_eq (h : Rep t T) (hq : q ∈ T.inorder) : t.linked q = true := by
  unfold rbtree_t.linked
  cases hp : (t.node q).parent with
  | none => rfl
  | some p =>
    obtain ⟨-, d, hd⟩ := h.parent hq hp
    unfold rbtree_t.hasChild
    cases d <;> simp [hd]

theorem recolored_swap (hne : a ≠ b) (h0 : t0 = (t.setColor a (t.node b).color).setColor b (t.node a).color) :
    Recolored t t0 a b := by
  have ha : t0.node a = { t.node a with color := (t.node b).color } := by
    rw [h0, node_setColor_of_ne _ _ hne, node_setColor_self]
  have hb : t0.node b = { t.node b with color := (t.node a).color } := by
    rw [h0, node_setColor_self, node_setColor_of_ne _ _ hne.symm]
  have hout : ∀ q, q ≠ a → q ≠ b → t0.node q = t.node q := fun q hqa hqb => by
    rw [h0, node_setColor_of_ne _ _ hqb, node_setColor_of_ne _ _ hqa]
  refine ⟨h0 ▸ rfl, fun q => ?_, fun q => ?_, fun q => ?_, hout, h0 ▸ rfl, h0 ▸ rfl⟩
  all_goals
    rcases eq_or_ne q a with rfl | hqa
    · simp [exchange_left, ha, hb]
    rcases eq_or_ne q b with rfl | hqb
    · simp [exchange_right, ha, hb]
    simp [exchange_of_ne hqa hqb, hout q hqa hqb]

theorem swap_spec (cb : Callbacks K A) {fuel : Nat} (h : Rep t T)
    (ha : a ∈ T.inorder) (hb : b ∈ T.inorder) (hne : a ≠ b) (hfuel : T.inorder.length < fuel) :
    ∃ t' T', rbtree_swap cb fuel t a b = some t' ∧ Swapped cb t t' T T' a b := by
  unfold rbtree_swap
  simp only [if_neg hne, require, linked_eq h ha, linked_eq h hb, if_true, bind, bind_some]
  generalize hrecolored : (t.setColor a (t.node b).color).setColor b (t.node a).color = t0
  have h0 := recolored_swap hne hrecolored.symm
  by_cases hab : (t0.node a).parent = some b
  · rw [if_pos hab]
    rw [h0.parent] at hab
    have h0' : Recolored t t0 b a := { h0 with
      color := fun q => by rw [exchange_comm]; exact h0.color q
      out := fun q hb ha => h0.out q ha hb }
    obtain ⟨t', T', ht', hs⟩ := swap_core cb h h0' hb ha hne.symm (h.acyclic ha hab).2 hfuel
    -- A node and its parent are not siblings.
    have hnot : ∀ q ∈ T.inorder, ∀ d e, ¬((t.node q).children d = some a ∧ (t.node q).children e = some b) := by
      rintro q hq d e ⟨h1, h2⟩
      obtain rfl := Option.some.inj ((h.child hq h1).2.symm.trans hab)
      exact (h.acyclic hb (h.child hq h2).2).1 rfl
    refine ⟨t', T', ht', hs.symm fun q hq => decide_eq_decide.2 (iff_of_false (hnot q hq _ _) fun hs => ?_)⟩
    exact hnot q hq _ _ hs.symm
  · rw [if_neg hab]
    rw [h0.parent] at hab
    exact swap_core cb h h0 ha hb hne hab hfuel

/-- The two nodes exchange their places, unless the first is the right and the second the left
child of one node. -/
theorem swap_exchanges_iff (cb : Callbacks K A) {fuel : Nat} {t : rbtree_t P K A} {T : CTree P} (h : Rep t T) {a b : P}
    (ha : a ∈ T.inorder) (hb : b ∈ T.inorder) (hne : a ≠ b) (hfuel : T.inorder.length < fuel) :
    ∃ t', rbtree_swap cb fuel t a b = some t' ∧
      (Rep t' (T.relabel (exchange a b) fun _ => false) ↔ ∀ q ∈ T.inorder, siblingsOf t a b q = false) := by
  obtain ⟨t', T', ht', hs⟩ := swap_spec cb h ha hb hne hfuel
  refine ⟨t', ht', fun hr q hq => ?_, fun hnot => ?_⟩
  · by_contra hsib
    rw [Bool.not_eq_false] at hsib
    have h1 := h.mem.children_relabel (hs.tree ▸ hs.rep).mem hq .left
    have h2 := h.mem.children_relabel hr.mem hq .left
    have hkids := of_decide_eq_true hsib
    simp only [hsib, if_true, Dir.opp, hkids.1, hkids.2, Bool.false_eq_true, if_false, map_some, exchange_left,
      exchange_right] at h1 h2
    exact hne (Option.some.inj (h2.symm.trans h1))
  · rw [← relabel_congr _ hnot, ← hs.tree]
    exact hs.rep

/-- Three nodes: `1` and `2` below `0`. -/
def triple : rbtree_t Nat Int Nat where
  root := some 0
  node q := if q = 0 then { children := fun d => if d = .left then some 1 else some 2 } else { parent := some 0 }
  key := fun _ => 0
  aug := fun _ => 0

def tripleTree : CTree Nat := .node .red (.node .red .nil 1 .nil) 0 (.node .red .nil 2 .nil)

theorem triple_rep : Rep triple tripleTree := ⟨rfl, by simp [RepT, tripleTree, triple, root], by decide⟩

theorem left_exchanged : ∃ t', rbtree_swap ⟨fun _ _ => 0, none⟩ 4 triple 1 2 = some t' ∧
    Rep t' (tripleTree.relabel (exchange 1 2) fun _ => false) := by
  obtain ⟨t', ht', hiff⟩ := swap_exchanges_iff ⟨fun _ _ => 0, none⟩ triple_rep (by decide : 1 ∈ tripleTree.inorder)
    (by decide : 2 ∈ tripleTree.inorder) (by decide) (by decide : tripleTree.inorder.length < 4)
  exact ⟨t', ht', hiff.2 (by decide)⟩

/-- The swap of the right child with the left one leaves both where they are. -/
theorem right_not_exchanged : ¬ ∃ t', rbtree_swap ⟨fun _ _ => 0, none⟩ 4 triple 2 1 = some t' ∧
    Rep t' (tripleTree.relabel (exchange 2 1) fun _ => false) := by
  rintro ⟨t', ht', hr⟩
  have hleft : (rbtree_swap ⟨fun _ _ => 0, none⟩ 4 triple 2 1).map (fun t => (t.node 0).children .left) =
      some (some 1) := by decide
  have hnow : (t'.node 0).children .left = some 2 := hr.mem.2.1
  rw [ht', map_some, hnow] at hleft
  exact absurd hleft (by decide)

end Patchwork.RbTree
