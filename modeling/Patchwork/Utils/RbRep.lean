import Patchwork.Utils.RbTree
/-!
# The tree in memory

`RepT h par t` says that the memory `h` holds the tree `t` below the node
`par`: each node has the parent, the children and the colour it has in `t`. A
context is held likewise (`RepC`). A write to one node then shows as a change of
the tree at one place, and leaves alone every part of the tree that does not
contain the node.
-/

namespace Patchwork.RbTree

open List Lib.RedBlack CTree Ctx

variable {P K A : Type}

/-! ## Trees and contexts in memory -/

def RepT (h : P → rbnode_t P) : Option P → CTree P → Prop
  | _, .nil => True
  | par, .node c l p r =>
    (h p).parent = par ∧ (h p).children .left = l.root ∧ (h p).children .right = r.root ∧ (h p).color = c ∧
      RepT h (some p) l ∧ RepT h (some p) r

def RepC (h : P → rbnode_t P) (root : Option P) : Ctx P → Option P → Prop
  | .top, hole => root = hole
  | .step d c p sib up, hole =>
    (h p).parent = up.parent ∧ (h p).children d = hole ∧ (h p).children d.opp = sib.root ∧ (h p).color = c ∧
      RepT h (some p) sib ∧ RepC h root up (some p)

variable {h h' : P → rbnode_t P} {par : Option P} {a b T : CTree P} {C : Ctx P} {d : Dir} {c : Color} {p : P}

theorem repT_bin : RepT h par (bin d c p a b) ↔
      (h p).parent = par ∧ (h p).children d = a.root ∧ (h p).children d.opp = b.root ∧ (h p).color = c ∧
        RepT h (some p) a ∧ RepT h (some p) b := by
  cases d with
  | left => rfl
  | right =>
    constructor
    · rintro ⟨h1, h2, h3, h4, h5, h6⟩
      exact ⟨h1, h3, h2, h4, h6, h5⟩
    · rintro ⟨h1, h2, h3, h4, h5, h6⟩
      exact ⟨h1, h3, h2, h4, h6, h5⟩

/-- A tree in memory is a context and a subtree in memory. -/
theorem rep_plug {root : Option P} {t : CTree P} :
    (root = (C.plug t).root ∧ RepT h none (C.plug t)) ↔ RepC h root C t.root ∧ RepT h C.parent t := by
  induction C generalizing t with
  | top => exact Iff.rfl
  | step d c p sib up ih =>
    rw [plug, ih, root_bin, repT_bin]
    simp only [RepC, parent]
    tauto

theorem RepT.congr {t : CTree P} (hr : RepT h par t) (heq : ∀ q ∈ t.inorder, h' q = h q) : RepT h' par t := by
  induction t generalizing par with
  | nil => trivial
  | node c l p r ihl ihr =>
    obtain ⟨h1, h2, h3, h4, h5, h6⟩ := hr
    have hp : h' p = h p := heq p (by simp)
    refine ⟨hp ▸ h1, hp ▸ h2, hp ▸ h3, hp ▸ h4, ihl h5 fun q hq => heq q ?_, ihr h6 fun q hq => heq q ?_⟩
    · simp [hq]
    · simp [hq]

theorem RepC.congr {root hole : Option P} (hr : RepC h root C hole)
    (heq : ∀ q ∈ C.nodes, h' q = h q) : RepC h' root C hole := by
  induction C generalizing hole with
  | top => exact hr
  | step d c p sib up ih =>
    obtain ⟨h1, h2, h3, h4, h5, h6⟩ := hr
    have hp : h' p = h p := heq p (mem_nodes_step.2 (.inl rfl))
    refine ⟨hp ▸ h1, hp ▸ h2, hp ▸ h3, hp ▸ h4, h5.congr fun q hq => heq q ?_, ih h6 fun q hq => heq q ?_⟩
    · exact mem_nodes_step.2 (.inr (.inl hq))
    · exact mem_nodes_step.2 (.inr (.inr hq))

theorem RepT.reparent {par' : Option P} {t : CTree P} (hr : RepT h par t)
    (hnd : t.inorder.Nodup) (hroot : ∀ q, t.root = some q → h' q = { h q with parent := par' })
    (heq : ∀ q ∈ t.inorder, t.root ≠ some q → h' q = h q) : RepT h' par' t := by
  cases t with
  | nil => trivial
  | node c l p r =>
    obtain ⟨h1, h2, h3, h4, h5, h6⟩ := hr
    have hp := hroot p rfl
    obtain ⟨hnl, hnr, hdis⟩ := nodup_append.1 hnd
    have hpr := (nodup_cons.1 hnr).1
    refine ⟨by rw [hp], by rw [hp]; exact h2, by rw [hp]; exact h3, by rw [hp]; exact h4,
      h5.congr fun q hq => heq q ?_ ?_, h6.congr fun q hq => heq q ?_ ?_⟩
    · simp [hq]
    · rintro ⟨⟩
      exact hdis p hq p mem_cons_self rfl
    · simp [hq]
    · rintro ⟨⟩
      exact hpr hq

/-- The memory of `t` holds the tree `T`, and no node occurs twice in it. -/
structure Rep (t : rbtree_t P K A) (T : CTree P) : Prop where
  root : t.root = T.root
  mem : RepT t.node none T
  nodup : T.inorder.Nodup

variable {t : rbtree_t P K A}

theorem Rep.plug (h : Rep t (C.plug T)) : RepC t.node t.root C T.root ∧ RepT t.node C.parent T :=
  rep_plug.1 ⟨h.root, h.mem⟩

theorem Rep.of_plug (hC : RepC t.node t.root C T.root)
    (hT : RepT t.node C.parent T) (hn : (C.plug T).inorder.Nodup) : Rep t (C.plug T) :=
  ⟨(rep_plug.2 ⟨hC, hT⟩).1, (rep_plug.2 ⟨hC, hT⟩).2, hn⟩

/-- The nodes of a context and of the tree in its hole are different. -/
theorem disjoint_of_nodup (h : (C.plug T).inorder.Nodup) {q : P} (hq : q ∈ T.inorder) : q ∉ C.nodes := fun hc =>
  (nodup_append.1 ((perm_inorder_plug C T).nodup_iff.1 h)).2.2 q hq q hc rfl

theorem nodup_of_plug (h : (C.plug T).inorder.Nodup) : T.inorder.Nodup :=
  (nodup_append.1 ((perm_inorder_plug C T).nodup_iff.1 h)).1

/-- Exchange the tree in a hole for one with the same nodes. -/
theorem nodup_plug_of_perm {T' : CTree P} (h : (C.plug T).inorder.Nodup)
    (hp : T'.inorder.Perm T.inorder) : (C.plug T').inorder.Nodup := by
  rw [(perm_inorder_plug C _).nodup_iff] at h ⊢
  exact (hp.append_right _).nodup_iff.2 h

/-- The parts of a node are disjoint. -/
theorem nodup_bin (h : (bin d c p a b).inorder.Nodup) :
    p ∉ a.inorder ∧ p ∉ b.inorder ∧ a.inorder.Nodup ∧ b.inorder.Nodup ∧ ∀ q ∈ a.inorder, q ∉ b.inorder := by
  rw [(perm_inorder_bin d c p a b).nodup_iff, nodup_cons, nodup_append] at h
  simp only [mem_append, not_or] at h
  exact ⟨h.1.1, h.1.2, h.2.1, h.2.2.1, fun q ha hb => h.2.2.2 q ha q hb rfl⟩

/-! ## Single writes -/

variable [DecidableEq P]

section writes
variable (t : rbtree_t P K A) (p q : P) (d : Dir) (v : Option P) (c : Color)

@[simp] theorem node_setParent_self : (t.setParent p v).node p = { t.node p with parent := v } := by
  simp [rbtree_t.setParent]

@[simp] theorem node_setChild_self : (t.setChild p d v).node p =
    { t.node p with children := Function.update (t.node p).children d v } := by
  simp [rbtree_t.setChild]

@[simp] theorem node_setColor_self : (t.setColor p c).node p = { t.node p with color := c } := by
  simp [rbtree_t.setColor]

variable {p q}

@[simp] theorem node_setParent_of_ne (h : q ≠ p) : (t.setParent p v).node q = t.node q := by
  simp [rbtree_t.setParent, h]

@[simp] theorem node_setChild_of_ne (h : q ≠ p) : (t.setChild p d v).node q = t.node q := by
  simp [rbtree_t.setChild, h]

@[simp] theorem node_setColor_of_ne (h : q ≠ p) : (t.setColor p c).node q = t.node q := by
  simp [rbtree_t.setColor, h]

end writes

theorem Rep.setColor
    (h : Rep t (C.plug (bin d c p a b))) (c' : Color) : Rep (t.setColor p c') (C.plug (bin d c' p a b)) := by
  obtain ⟨hC, hT⟩ := h.plug
  obtain ⟨h1, h2, h3, -, h5, h6⟩ := repT_bin.1 hT
  obtain ⟨hpa, hpb, -, -, -⟩ := nodup_bin (nodup_of_plug h.nodup)
  have hpC : p ∉ C.nodes := disjoint_of_nodup h.nodup (mem_inorder_bin.2 (.inl rfl))
  have hne : ∀ q, q ≠ p → (t.setColor p c').node q = t.node q := fun q hq => node_setColor_of_ne t c' hq
  refine Rep.of_plug ?_ (repT_bin.2 ?_) (nodup_plug_of_perm h.nodup ?_)
  · rw [root_bin] at hC ⊢
    exact hC.congr fun q hq => hne q fun he => hpC (he ▸ hq)
  · rw [node_setColor_self]
    exact ⟨h1, h2, h3, rfl, h5.congr fun q hq => hne q fun he => hpa (he ▸ hq),
      h6.congr fun q hq => hne q fun he => hpb (he ▸ hq)⟩
  · exact (perm_inorder_bin d c' p a b).trans (perm_inorder_bin d c p a b).symm

/-! ## The link from above -/

/-- Another node in a hole. -/
theorem RepC.setChild {sib : CTree P} {up : Ctx P} {hole : Option P}
    (h : RepC t.node t.root (.step d c p sib up) hole) (new : Option P)
    (hnd : (Ctx.step d c p sib up).nodes.Nodup) : RepC (t.setChild p d new).node t.root (.step d c p sib up) new := by
  obtain ⟨h1, -, h3, h4, h5, h6⟩ := h
  obtain ⟨hp, -⟩ := nodup_cons.1 ((perm_nodes_step d c p sib up).nodup_iff.1 hnd)
  simp only [mem_append, not_or] at hp
  have hne : ∀ q, q ≠ p → (t.setChild p d new).node q = t.node q := fun q hq => node_setChild_of_ne t d new hq
  simp only [RepC, node_setChild_self]
  refine ⟨h1, by simp, by simp [h3], h4, ?_, ?_⟩
  · exact h5.congr fun q hq => hne q fun he => hp.1 (he ▸ hq)
  · exact h6.congr fun q hq => hne q fun he => hp.2 (he ▸ hq)

/-- The memory above a hole, with `new` in it: the parent's pointer is the only
field that changes. -/
theorem RepC.setLink {old : P} (h : RepC t.node t.root C (some old)) (d : Dir)
    (new : Option P) (hold : old ∉ C.nodes) (hnd : C.nodes.Nodup) :
    RepC (t.setLink C.parent d old new).node (t.setLink C.parent d old new).root C new ∧
      ∀ q, C.parent ≠ some q → (t.setLink C.parent d old new).node q = t.node q := by
  cases C with
  | top => exact ⟨rfl, fun q _ => rfl⟩
  | step e c p sib up =>
    have hsib : sib.root ≠ some old := fun hr => hold (mem_nodes_step.2 (.inr (.inl (root_mem hr))))
    -- The test of the source finds the side the hole is on.
    have heq : t.setLink (some p) d old new = t.setChild p e new := by
      simp only [rbtree_t.setLink]
      rcases e.eq_or_opp d with rfl | rfl
      · rw [if_pos h.2.1]
      · rw [if_neg (by rw [h.2.2.1]; exact hsib), Dir.opp_opp]
    simp only [parent]
    rw [heq]
    exact ⟨h.setChild new hnd, fun q hq => node_setChild_of_ne t e new fun he => hq (by rw [he])⟩

end Patchwork.RbTree
