import Patchwork.Utils.RbRep
/-!
# Updates and rotations

`rbtree_update_to_root` recomputes the augmented values along a path to the
root. A node is fresh if its value is the one `update` would compute; after the
walk the nodes of the path are fresh, whatever they were before, and the others
are what they were. A rotation changes the children of nodes on one such path
only.
-/

namespace Patchwork.RbTree

open List Lib.RedBlack CTree Ctx

variable {P K A : Type}

/-! ## Fresh values -/

/-- The augmented value of `q` is what `update` would make it. -/
def Fresh (cb : Callbacks K A) (t : rbtree_t P K A) (q : P) : Prop :=
  ∀ f, cb.update = some f →
    t.aug q = f (t.key q) (((t.node q).children .left).map t.aug) (((t.node q).children .right).map t.aug)

variable {cb : Callbacks K A} {t : rbtree_t P K A} {q p n r : P} {T a b : CTree P} {d : Dir} {C : Ctx P} {fuel : Nat}

theorem Fresh.congr {t' : rbtree_t P K A} (h : Fresh cb t q)
    (hc : (t'.node q).children = (t.node q).children) (hk : t'.key q = t.key q) (ha : t'.aug q = t.aug q)
    (hch : ∀ d c, (t.node q).children d = some c → t'.aug c = t.aug c) : Fresh cb t' q := by
  intro f hf
  have hmap : ∀ d, ((t.node q).children d).map t'.aug = ((t.node q).children d).map t.aug :=
    fun d => Option.map_congr (hch d)
  rw [ha, hk, hc, hmap, hmap]
  exact h f hf

/-- What an operation that reshapes a tree without changing its keys does. -/
structure Reshaped (cb : Callbacks K A) (t t' : rbtree_t P K A) (T T' : CTree P) : Prop where
  rep : Rep t' T'
  key : t'.key = t.key
  perm : T'.inorder.Perm T.inorder
  out : ∀ q, q ∉ T.inorder → t'.node q = t.node q
  fresh : (∀ q ∈ T.inorder, Fresh cb t q) → ∀ q ∈ T'.inorder, Fresh cb t' q

theorem Reshaped.trans {t₁ t₂ t₃ : rbtree_t P K A} {T₁ T₂ T₃ : CTree P}
    (h₁ : Reshaped cb t₁ t₂ T₁ T₂) (h₂ : Reshaped cb t₂ t₃ T₂ T₃) : Reshaped cb t₁ t₃ T₁ T₃ where
  rep := h₂.rep
  key := h₂.key.trans h₁.key
  perm := h₂.perm.trans h₁.perm
  out q hq := (h₂.out q fun hm => hq (h₁.perm.mem_iff.1 hm)).trans (h₁.out q hq)
  fresh hf := h₂.fresh (h₁.fresh hf)

/-- The operation keeps the order of the nodes as well. -/
structure Kept (cb : Callbacks K A) (t t' : rbtree_t P K A) (T T' : CTree P) : Prop extends Reshaped cb t t' T T' where
  inorder : T'.inorder = T.inorder

theorem Kept.trans {t₁ t₂ t₃ : rbtree_t P K A} {T₁ T₂ T₃ : CTree P}
    (h₁ : Kept cb t₁ t₂ T₁ T₂) (h₂ : Kept cb t₂ t₃ T₂ T₃) : Kept cb t₁ t₃ T₁ T₃ :=
  ⟨h₁.toReshaped.trans h₂.toReshaped, h₂.inorder.trans h₁.inorder⟩

theorem Rep.kept (h : Rep t T) : Kept cb t t T T :=
  ⟨⟨h, rfl, .refl _, fun _ _ => rfl, fun hf => hf⟩, rfl⟩

theorem RepT.parent_of_child {h : P → rbnode_t P} {par : Option P} (hr : RepT h par T) {c : P}
    (hq : q ∈ T.inorder) (hc : (h q).children d = some c) : (h c).parent = some q ∧ c ∈ T.inorder := by
  induction T generalizing par with
  | nil => cases hq
  | node col l p r ihl ihr =>
    obtain ⟨-, h2, h3, -, h5, h6⟩ := hr
    simp only [inorder, mem_append, mem_cons] at hq ⊢
    rcases hq with hq | rfl | hq
    · exact ⟨(ihl h5 hq).1, .inl (ihl h5 hq).2⟩
    · have hroot : ∀ s : CTree P, RepT h (some q) s → s.root = some c → (h c).parent = some q ∧ c ∈ s.inorder := by
        intro s hs hsc
        obtain ⟨cc, sl, sr, rfl⟩ := exists_of_root hsc
        exact ⟨hs.1, root_mem hsc⟩
      cases d with
      | left => exact ⟨(hroot l h5 (h2 ▸ hc)).1, .inl (hroot l h5 (h2 ▸ hc)).2⟩
      | right => exact ⟨(hroot r h6 (h3 ▸ hc)).1, .inr (.inr (hroot r h6 (h3 ▸ hc)).2)⟩
    · exact ⟨(ihr h6 hq).1, .inr (.inr (ihr h6 hq).2)⟩

/-- The parent of a node on the path above a hole is on the path. -/
theorem RepC.parent_on_path {h : P → rbnode_t P} {root hole : Option P} (hr : RepC h root C hole) {c : P}
    (hc : c ∈ C.path) (hp : (h c).parent = some q) : q ∈ C.path := by
  induction C generalizing hole with
  | top => cases hc
  | step d col p sib up ih =>
    obtain ⟨h1, -, -, -, -, h6⟩ := hr
    rcases mem_cons.1 hc with rfl | hc
    · exact mem_cons_of_mem _ (parent_mem_path (h1.symm.trans hp))
    · exact mem_cons_of_mem _ (ih h6 hc)

/-- What a walk along the nodes `S` does. -/
structure Walked (f : K → Option A → Option A → A) (t t' : rbtree_t P K A) (S : List P) : Prop where
  root : t'.root = t.root
  node : t'.node = t.node
  key : t'.key = t.key
  aug : ∀ q, q ∉ S → t'.aug q = t.aug q
  fresh : ∀ q ∈ S, t'.aug q =
    f (t.key q) (((t.node q).children .left).map t'.aug) (((t.node q).children .right).map t'.aug)

variable [DecidableEq P]

/-- A node is updated before the walk goes on without it. -/
theorem Walked.cons {f : K → Option A → Option A → A} {t' : rbtree_t P K A} {S : List P}
    (h : Walked f (rbtree_update f t p) t' S) (hp : p ∉ S)
    (hch : ∀ d c, (t.node p).children d = some c → c ∉ p :: S) : Walked f t t' (p :: S) := by
  refine ⟨h.root, h.node, h.key, fun q hq => ?_, fun q hq => ?_⟩
  · obtain ⟨hqp, hqS⟩ := not_or.1 (mt mem_cons.2 hq)
    rw [h.aug q hqS]
    simp [rbtree_update, hqp]
  · rcases mem_cons.1 hq with rfl | hq
    · have hmap : ∀ d, ((t.node q).children d).map t'.aug = ((t.node q).children d).map t.aug := by
        refine fun d => Option.map_congr fun c hc => ?_
        obtain ⟨hcq, hcS⟩ := not_or.1 (mt mem_cons.2 (hch d c hc))
        rw [h.aug c hcS]
        simp [rbtree_update, hcq]
      rw [hmap, hmap, h.aug q hp]
      simp [rbtree_update]
    · exact h.fresh q hq

theorem update_path_walked (f : K → Option A → Option A → A)
    (hfuel : C.path.length + 2 ≤ fuel) (hpar : (t.node p).parent = C.parent) (hC : RepC t.node t.root C (some p))
    (hnd : (p :: C.nodes).Nodup) (hch : ∀ d c, (t.node p).children d = some c → c ∉ p :: C.path) :
    ∃ t', rbtree_update_path f fuel t (some p) = some t' ∧ Walked f t t' (p :: C.path) := by
  induction C generalizing t p fuel with
  | top =>
    obtain ⟨n, rfl⟩ : ∃ n, fuel = n + 2 := ⟨fuel - 2, by simp only [path, length_nil] at hfuel; omega⟩
    refine ⟨rbtree_update f t p, ?_, Walked.cons ⟨rfl, rfl, rfl, fun _ _ => rfl, by rintro _ ⟨⟩⟩ not_mem_nil hch⟩
    rw [rbtree_update_path, hpar]
    rfl
  | step d col g sib up ih =>
    obtain ⟨n, rfl⟩ : ∃ n, fuel = n + 1 := ⟨fuel - 1, by omega⟩
    obtain ⟨h1, h2, h3, h4, h5, h6⟩ := hC
    obtain ⟨hpC, hndC⟩ := nodup_cons.1 hnd
    have hnd' := (perm_nodes_step d col g sib up).nodup_iff.1 hndC
    obtain ⟨hg, hsibup⟩ := nodup_cons.1 hnd'
    simp only [mem_append, not_or] at hg
    have hgp : p ≠ g := fun he => hpC (mem_nodes_step.2 (.inl he))
    have hpup : p ∉ up.path := fun hm => hpC (mem_nodes_step.2 (.inr (.inr (path_subset up hm))))
    -- The walk goes on from the parent, whose children are the node itself and its sibling.
    obtain ⟨t', ht', hw⟩ : ∃ t', rbtree_update_path f n (rbtree_update f t p) (some g) = some t' ∧
        Walked f (rbtree_update f t p) t' (g :: up.path) :=
      ih (by simp only [path, length_cons] at hfuel; omega) h1 h6
      (nodup_cons.2 ⟨hg.2, (nodup_append.1 hsibup).2.1⟩) (by
        intro e c hc
        change (t.node g).children e = some c at hc
        rcases d.eq_or_opp e with rfl | rfl
        · rw [h2] at hc
          cases hc
          simp only [mem_cons, not_or]
          exact ⟨hgp, hpup⟩
        · rw [h3] at hc
          have hcs := root_mem hc
          simp only [mem_cons, not_or]
          refine ⟨fun he => hg.1 (he ▸ hcs), fun hm => ?_⟩
          exact (nodup_append.1 hsibup).2.2 c hcs c (path_subset up hm) rfl)
    refine ⟨t', ?_, hw.cons (by simp [hgp, hpup]) hch⟩
    rw [rbtree_update_path, hpar]
    exact ht'

/-- What `rbtree_update_to_root` does to a tree: only augmented values change. -/
structure Refreshed (cb : Callbacks K A) (t t' : rbtree_t P K A) (T : CTree P) (S : List P) : Prop where
  rep : Rep t' T
  node : t'.node = t.node
  key : t'.key = t.key
  fresh : ∀ q ∈ T.inorder, Fresh cb t q ∨ q ∈ S → Fresh cb t' q

theorem update_to_root_spec (cb : Callbacks K A)
    (h : Rep t (C.plug T)) (hp : T.root = some p) (hfuel : (C.plug T).inorder.length < fuel) :
    ∃ t', rbtree_update_to_root cb fuel t (some p) = some t' ∧ Refreshed cb t t' (C.plug T) (p :: C.path) := by
  unfold rbtree_update_to_root
  cases hf : cb.update with
  | none => exact ⟨t, rfl, h, rfl, rfl, fun q _ _ f hf' => by rw [hf] at hf'; cases hf'⟩
  | some f =>
    obtain ⟨hC, hT⟩ := h.plug
    rw [hp] at hC
    have hpT := root_mem hp
    have hpar : (t.node p).parent = C.parent := by
      obtain ⟨c, l, r, rfl⟩ := exists_of_root hp
      exact hT.1
    have hperm := perm_inorder_plug C T
    have hnd : (p :: C.nodes).Nodup :=
      nodup_cons.2 ⟨disjoint_of_nodup h.nodup hpT, (nodup_append.1 (hperm.nodup_iff.1 h.nodup)).2.1⟩
    -- A path is closed under parents, so the children of other nodes are not on it.
    have hclosed : ∀ c q, c ∈ p :: C.path → (t.node c).parent = some q → q ∈ p :: C.path := by
      intro c q hc hcq
      rcases mem_cons.1 hc with rfl | hc
      · exact mem_cons_of_mem _ (parent_mem_path (hpar.symm.trans hcq))
      · exact mem_cons_of_mem _ (hC.parent_on_path hc hcq)
    have hch : ∀ d c, (t.node p).children d = some c → c ∉ p :: C.path := by
      intro d c hc hm
      have hcp := hT.parent_of_child hpT hc
      rcases mem_cons.1 hm with rfl | hm
      · rw [hpar] at hcp
        exact disjoint_of_nodup h.nodup hpT (parent_mem hcp.1)
      · exact disjoint_of_nodup h.nodup hcp.2 (path_subset C hm)
    have hlen : C.path.length + 2 ≤ fuel := by
      have := length_path_le C
      rw [hperm.length_eq, length_append] at hfuel
      have := length_pos_of_mem hpT
      omega
    obtain ⟨t', ht', hw⟩ := update_path_walked f hlen hpar hC hnd hch
    refine ⟨t', ht', ⟨hw.root.trans h.root, hw.node ▸ h.mem, h.nodup⟩, hw.node, hw.key, fun q hq hor => ?_⟩
    by_cases hqS : q ∈ p :: C.path
    · intro f' hf'
      obtain rfl := Option.some.inj (hf.symm.trans hf')
      rw [hw.fresh q hqS, hw.node, hw.key]
    · refine (hor.resolve_right hqS).congr (by rw [hw.node]) (by rw [hw.key]) (hw.aug q hqS) fun d c hc => ?_
      refine hw.aug c fun hcS => hqS ?_
      exact hclosed c q hcS (h.mem.parent_of_child hq hc).1

/-! ## Rotation -/

theorem node_setParentOf (t : rbtree_t P K A) (p v : Option P) (q : P) :
    (t.setParentOf p v).node q = if p = some q then { t.node q with parent := v } else t.node q := by
  cases p with
  | none => rfl
  | some p =>
    by_cases h : q = p
    · subst h
      simp [rbtree_t.setParentOf]
    · rw [if_neg (by simpa using Ne.symm h)]
      exact node_setParent_of_ne t v h

/-- The pointer writes of `rbtree_rotate`. -/
def rotatePointers (t : rbtree_t P K A) (node newRoot : P) (direction : Dir) : rbtree_t P K A :=
  let parent := (t.node node).parent
  let newChild := (t.node newRoot).children direction
  let t := t.setChild node direction.opp newChild
  let t := t.setParentOf newChild (some node)
  let t := t.setChild newRoot direction (some node)
  let t := t.setParent newRoot parent
  let t := t.setParent node (some newRoot)
  t.setLink parent .right node (some newRoot)

theorem rotate_eq (cb : Callbacks K A) (fuel : Nat) (h : (t.node n).children d.opp = some r) :
    rbtree_rotate cb fuel t n d = (rbtree_update_to_root cb fuel (rotatePointers t n r d) (some n)).bind
      fun t => rbtree_update_to_root cb fuel t (some r) := by
  unfold rbtree_rotate
  simp only [h]
  rfl

theorem rotatePointers_rep {cn cr : Color} {e : CTree P} (h : Rep t (C.plug (bin d cn n a (bin d cr r b e)))) :
    Rep (rotatePointers t n r d) (C.plug (bin d cr r (bin d cn n a b) e)) ∧
      (∀ q, q ≠ n → q ≠ r → C.parent ≠ some q →
        ((rotatePointers t n r d).node q).children = (t.node q).children) ∧
      ∀ q, q ∉ (C.plug (bin d cn n a (bin d cr r b e))).inorder →
        (rotatePointers t n r d).node q = t.node q := by
  obtain ⟨hC, hT⟩ := h.plug
  obtain ⟨hnp, hna, hnr', hnc, hra, hT'⟩ := repT_bin.1 hT
  obtain ⟨hrp, hrb, hre, hrc, hrepb, hrepe⟩ := repT_bin.1 hT'
  obtain ⟨hn_a, hn_r, hnda, hndr, hdis⟩ := nodup_bin (nodup_of_plug h.nodup)
  obtain ⟨hr_b, hr_e, hndb, -, hdisbe⟩ := nodup_bin hndr
  simp only [mem_inorder_bin, not_or] at hn_r hdis
  have hnr : n ≠ r := hn_r.1
  rw [root_bin] at hC
  -- Nothing of the context is below the hole.
  have hout : ∀ q ∈ C.nodes, q ≠ n ∧ q ≠ r ∧ q ∉ a.inorder ∧ q ∉ b.inorder ∧ q ∉ e.inorder := by
    intro q hq
    have hq' : q ∉ (bin d cn n a (bin d cr r b e)).inorder := fun hm => disjoint_of_nodup h.nodup hm hq
    simp only [mem_inorder_bin, not_or] at hq'
    exact ⟨hq'.1, hq'.2.2.1, hq'.2.1, hq'.2.2.2⟩
  unfold rotatePointers
  rw [hnp, hrb]
  dsimp only
  generalize ht5 : ((((t.setChild n d.opp b.root).setParentOf b.root (some n)).setChild r d (some n)).setParent r
    C.parent).setParent n (some r) = t5
  have hbn : b.root ≠ some n := fun hb => hn_r.2.1 (root_mem hb)
  have hbr : b.root ≠ some r := fun hb => hr_b (root_mem hb)
  have h5n : t5.node n = ⟨some r, Function.update (t.node n).children d.opp b.root, (t.node n).color⟩ := by
    rw [← ht5, node_setParent_self, node_setParent_of_ne _ _ hnr, node_setChild_of_ne _ _ _ hnr, node_setParentOf,
      if_neg hbn, node_setChild_self]
  have h5r : t5.node r = ⟨C.parent, Function.update (t.node r).children d (some n), (t.node r).color⟩ := by
    rw [← ht5, node_setParent_of_ne _ _ hnr.symm, node_setParent_self, node_setChild_self, node_setParentOf,
      if_neg hbr, node_setChild_of_ne _ _ _ hnr.symm]
  have h5q : ∀ q, q ≠ n → q ≠ r → t5.node q =
      if b.root = some q then { t.node q with parent := some n } else t.node q := by
    intro q hqn hqr
    rw [← ht5, node_setParent_of_ne _ _ hqn, node_setParent_of_ne _ _ hqr, node_setChild_of_ne _ _ _ hqr,
      node_setParentOf, node_setChild_of_ne _ _ _ hqn]
  have h5o : ∀ q, q ≠ n → q ≠ r → q ∉ b.inorder → t5.node q = t.node q := fun q hqn hqr hqb => by
    rw [h5q q hqn hqr, if_neg fun hb => hqb (root_mem hb)]
  have hroot5 : t5.root = t.root := by
    rw [← ht5]
    cases b.root <;> rfl
  -- The context, with the new root in its hole.
  have hC5 : RepC t5.node t5.root C (some n) := by
    rw [hroot5]
    exact hC.congr fun q hq => h5o q (hout q hq).1 (hout q hq).2.1 (hout q hq).2.2.2.1
  have hndC : C.nodes.Nodup := (nodup_append.1 ((perm_inorder_plug C _).nodup_iff.1 h.nodup)).2.1
  obtain ⟨hC6, h6⟩ := hC5.setLink .right (some r) (fun hm => (hout n hm).1 rfl) hndC
  have hbelow : ∀ q, q ∉ C.nodes → (t5.setLink C.parent .right n (some r)).node q = t5.node q :=
    fun q hq => h6 q fun hp => hq (parent_mem hp)
  generalize t5.setLink C.parent .right n (some r) = t6 at hC6 h6 hbelow ⊢
  have hin : ∀ q, q = n ∨ q = r ∨ q ∈ a.inorder ∨ q ∈ b.inorder ∨ q ∈ e.inorder → t6.node q = t5.node q := by
    refine fun q hq => hbelow q fun hm => ?_
    obtain ⟨h1, h2, h3, h4, h5⟩ := hout q hm
    tauto
  have h6n := (hin n (.inl rfl)).trans h5n
  have h6r := (hin r (.inr (.inl rfl))).trans h5r
  refine ⟨Rep.of_plug (by rwa [root_bin]) (repT_bin.2 ⟨?_, ?_, ?_, ?_, repT_bin.2 ⟨?_, ?_, ?_, ?_, ?_, ?_⟩, ?_⟩)
    (nodup_plug_of_perm h.nodup ?_), fun q hqn hqr hqp => ?_, fun q hq => ?_⟩
  · rw [h6r]
  · rw [h6r, root_bin]
    simp
  · rw [h6r]
    simp [hre]
  · rw [h6r]
    exact hrc
  · rw [h6n]
  · rw [h6n]
    simp [hna]
  · rw [h6n]
    simp
  · rw [h6n]
    exact hnc
  · refine hra.congr fun q hq => ?_
    rw [hin q (by tauto), h5o q (fun he => hn_a (he ▸ hq)) (fun he => (hdis q hq).1 he) (hdis q hq).2.1]
  · have hqn : ∀ q ∈ b.inorder, q ≠ n := fun q hq he => hn_r.2.1 (he ▸ hq)
    have hqr : ∀ q ∈ b.inorder, q ≠ r := fun q hq he => hr_b (he ▸ hq)
    refine hrepb.reparent hndb (fun q hq => ?_) fun q hq hne => ?_
    · have hqb := root_mem hq
      rw [hin q (by tauto), h5q q (hqn q hqb) (hqr q hqb), if_pos hq]
    · rw [hin q (by tauto), h5q q (hqn q hq) (hqr q hq), if_neg hne]
  · refine hrepe.congr fun q hq => ?_
    rw [hin q (by tauto), h5o q (fun he => hn_r.2.2 (he ▸ hq)) (fun he => hr_e (he ▸ hq))
      fun hb => hdisbe q hb hq]
  · exact .of_eq (inorder_rotate d cn cr n r a b e)
  · rw [h6 q hqp, h5q q hqn hqr]
    split <;> rfl
  · rw [(perm_inorder_plug C _).mem_iff, mem_append, not_or, mem_inorder_bin, mem_inorder_bin] at hq
    simp only [not_or] at hq
    rw [hbelow q hq.2, h5o q hq.1.1 hq.1.2.2.1 hq.1.2.2.2.1]

theorem setColor_spec (cb : Callbacks K A) {c : Color} (h : Rep t (C.plug (bin d c p a b))) (c' : Color) :
    Kept cb t (t.setColor p c') (C.plug (bin d c p a b)) (C.plug (bin d c' p a b)) := by
  have hin : (C.plug (bin d c' p a b)).inorder = (C.plug (bin d c p a b)).inorder := by
    rw [inorder_plug, inorder_plug]
    cases d <;> rfl
  refine ⟨⟨h.setColor c', rfl, .of_eq hin, fun q hq => node_setColor_of_ne t c' ?_, fun hf q hq => ?_⟩, hin⟩
  · rintro rfl
    exact hq ((perm_inorder_plug C _).mem_iff.2 (mem_append_left _ (mem_inorder_bin.2 (.inl rfl))))
  · refine (hf q (hin ▸ hq)).congr ?_ rfl rfl fun _ _ _ => rfl
    by_cases hqp : q = p
    · rw [hqp, node_setColor_self]
    · rw [node_setColor_of_ne t c' hqp]

theorem rotatePointers_key (t : rbtree_t P K A) (n r : P) (d : Dir) :
    (rotatePointers t n r d).key = t.key ∧ (rotatePointers t n r d).aug = t.aug := by
  unfold rotatePointers rbtree_t.setLink rbtree_t.setParentOf
  dsimp only
  constructor <;> repeat (first | rfl | split)

/-- A rotation in memory is a rotation of the tree. -/
theorem rotate_spec (cb : Callbacks K A) {cn cr : Color}
    {e : CTree P} (h : Rep t (C.plug (bin d cn n a (bin d cr r b e))))
    (hfuel : (C.plug (bin d cn n a (bin d cr r b e))).inorder.length < fuel) :
    ∃ t', rbtree_rotate cb fuel t n d = some t' ∧
      Kept cb t t' (C.plug (bin d cn n a (bin d cr r b e))) (C.plug (bin d cr r (bin d cn n a b) e)) := by
  have hr : (t.node n).children d.opp = some r := by
    have := (repT_bin.1 h.plug.2).2.2.1
    rwa [root_bin] at this
  obtain ⟨hrep, hch, hout⟩ := rotatePointers_rep h
  obtain ⟨hkey, haug⟩ := rotatePointers_key t n r d
  have hin : (C.plug (bin d cr r (bin d cn n a b) e)).inorder = (C.plug (bin d cn n a (bin d cr r b e))).inorder := by
    rw [inorder_plug, inorder_plug, inorder_rotate]
  have hrep1 : Rep (rotatePointers t n r d) (Ctx.plug (.step d cr r e C) (bin d cn n a b)) := hrep
  obtain ⟨t1, ht1, hw1⟩ := update_to_root_spec cb hrep1 (root_bin d cn n a b) (by rw [plug, hin]; exact hfuel)
  obtain ⟨t2, ht2, hw2⟩ := update_to_root_spec cb (C := C) hw1.rep (root_bin d cr r _ e) (by rw [hin]; exact hfuel)
  refine ⟨t2, by rw [rotate_eq cb fuel hr, ht1]; exact ht2,
    ⟨hw2.rep, ?_, .of_eq hin, fun q hq => ?_, fun hf q hq => ?_⟩, hin⟩
  · rw [hw2.key, hw1.key, hkey]
  · rw [hw2.node, hw1.node, hout q hq]
  · refine hw2.fresh q hq (.inl (hw1.fresh q hq ?_))
    by_cases hpath : q ∈ n :: path (.step d cr r e C)
    · exact .inr hpath
    · simp only [path, mem_cons, not_or] at hpath
      have hpar : C.parent ≠ some q := fun hp => hpath.2.2 (parent_mem_path hp)
      refine .inl ((hf q (hin ▸ hq)).congr (hch q hpath.1 hpath.2.1 hpar) (by rw [hkey]) (by rw [haug]) ?_)
      intro _ c _
      rw [haug]

end Patchwork.RbTree
