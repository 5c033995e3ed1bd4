import Patchwork.Utils.RbRotate
/-!
# Insertion

A new node is red and hangs below a node that may be red as well. The loop of
`rbtree_insert_at` keeps a subtree with a red root that is valid by itself, in a
context that is valid except that it may not take a red root, and moves it up
two levels or ends.
-/

namespace Patchwork.RbTree

open List hiding after
open Option Lib.RedBlack CTree Ctx

variable {P K A : Type}

/-! ## The place of a new node -/

/-- `compare` is a total preorder: negative, zero or positive for less, equal
and greater. -/
structure IsCompare (compare : K → K → Int) : Prop where
  flip : ∀ a b, compare a b < 0 ↔ 0 < compare b a
  trans : ∀ a b c, compare a b ≤ 0 → compare b c ≤ 0 → compare a c ≤ 0

/-- The nodes are in the order of their keys. -/
def Sorted (cb : Callbacks K A) (key : P → K) (l : List P) : Prop :=
  l.Pairwise fun x y => cb.compare (key x) (key y) ≤ 0

theorem IsCompare.lt_of_lt_of_le {compare : K → K → Int} (h : IsCompare compare) {a b c : K} (hab : compare a b < 0)
    (hbc : compare b c ≤ 0) : compare a c < 0 := by
  by_contra hac
  have hca : compare c a ≤ 0 := by
    by_contra hca
    exact hac ((h.flip a c).2 (by omega))
  have hba := h.trans b c a hbc hca
  have := (h.flip a b).1 hab
  omega

/-- The node goes after the nodes `before` and in front of the nodes `after`. -/
def Fits (cb : Callbacks K A) (key : P → K) (node : P) (before after : List P) : Prop :=
  (∀ x ∈ before, cb.compare (key x) (key node) ≤ 0) ∧ ∀ x ∈ after, cb.compare (key node) (key x) < 0

variable {node q : P} {c : Color} {d : Dir}

theorem Fits.sorted {cb : Callbacks K A} {key : P → K} {before after : List P}
    (h : Fits cb key node before after) (hs : Sorted cb key (before ++ after)) :
    Sorted cb key (before ++ node :: after) := by
  obtain ⟨hb, ha, hba⟩ := pairwise_append.1 hs
  refine pairwise_append.2 ⟨hb, pairwise_cons.2 ⟨fun x hx => Int.le_of_lt (h.2 x hx), ha⟩, fun x hx y hy => ?_⟩
  rcases mem_cons.1 hy with rfl | hy
  · exact h.1 x hx
  · exact hba x hx y hy

variable {t : rbtree_t P K A} {n : Nat}

theorem insert_descend_spec (cb : Callbacks K A) (node : P) {C : Ctx P} {s : CTree P}
    (h : Rep t (C.plug s)) (hn : s.inorder.length < n) :
    ∃ C', rbtree_insert_descend cb t node n s.root C.parent (C.side .left) = some (C'.parent, C'.side .left) ∧
      Ctx.plug C' .nil = C.plug s ∧
      (IsCompare cb.compare → Sorted cb t.key (C.plug s).inorder → Fits cb t.key node C.before C.after →
        Fits cb t.key node C'.before C'.after) := by
  induction s generalizing n C with
  | nil =>
    obtain ⟨n, rfl⟩ : ∃ k, n = k + 1 := ⟨n - 1, by omega⟩
    exact ⟨C, rfl, rfl, fun _ _ hf => hf⟩
  | node c l p r ihl ihr =>
    obtain ⟨n, rfl⟩ : ∃ k, n = k + 1 := ⟨n - 1, by omega⟩
    obtain ⟨-, h2, h3, -⟩ := h.plug.2
    simp only [inorder, length_append, length_cons] at hn
    have hsub : Sorted cb t.key (C.plug (.node c l p r)).inorder → Sorted cb t.key (inorder (.node c l p r)) := by
      intro hs
      rw [inorder_plug] at hs
      exact (pairwise_append.1 (pairwise_append.1 hs).1).2.1
    simp only [root, rbtree_insert_descend]
    by_cases hlt : cb.compare (t.key node) (t.key p) < 0
    · obtain ⟨C', hC', hplug, hfit⟩ := ihl (C := .step .left c p r C) (n := n) h (by omega)
      rw [if_pos hlt, h2]
      refine ⟨C', hC', hplug, fun hcmp hs hf => hfit hcmp hs ⟨hf.1, fun x hx => ?_⟩⟩
      -- What comes after the node that is larger is larger as well.
      have hpr := (pairwise_append.1 (hsub hs)).2.1
      simp only [after, cons_append, mem_cons, mem_append] at hx
      rcases hx with rfl | hx | hx
      · exact hlt
      · exact hcmp.lt_of_lt_of_le hlt ((pairwise_cons.1 hpr).1 x hx)
      · exact hf.2 x hx
    · obtain ⟨C', hC', hplug, hfit⟩ := ihr (C := .step .right c p l C) (n := n) h (by omega)
      rw [if_neg hlt, h3]
      refine ⟨C', hC', hplug, fun hcmp hs hf => hfit hcmp hs ⟨fun x hx => ?_, hf.2⟩⟩
      have hle : cb.compare (t.key p) (t.key node) ≤ 0 := by
        by_contra hgt
        exact hlt ((hcmp.flip _ _).2 (by omega))
      have hlp := (pairwise_append.1 (hsub hs)).2.2
      simp only [before, mem_append, mem_singleton] at hx
      rcases hx with hx | hx | rfl
      · exact hf.1 x hx
      · exact hcmp.trans _ _ _ (hlp x hx p mem_cons_self) hle
      · exact hle

/-! ## Reading the memory above a subtree -/

variable {T : CTree P}

/-- The colour of the root of a subtree, as the code tests it. -/
theorem isBlack_root {par : Option P}
    (h : RepT t.node par T) (hv : Valid T c n) : t.isBlack T.root = decide (c = .black) := by
  cases hv with
  | nil => rfl
  | red | black => simp [rbtree_t.isBlack, root, h.2.2.2.1]

variable {p : P} {sib : CTree P}

theorem not_mem_sibling {C : Ctx P}
    (h : (Ctx.plug (.step d c p sib C) T).inorder.Nodup) (hq : q ∈ T.inorder) : q ∉ sib.inorder :=
  fun hs => disjoint_of_nodup h hq (mem_nodes_step.2 (.inr (.inl hs)))

/-- The result of a fix-up: the same nodes in the same order, and a tree that is
valid once its root is black. -/
def Balanced (cb : Callbacks K A) (t : rbtree_t P K A) (T : CTree P) (r : Option (rbtree_t P K A)) : Prop :=
  ∃ t' T', r = some t' ∧ Kept cb t t' T T' ∧ ∃ m, Valid T'.blacken .black m

/-- A step that keeps the order, and then a fix-up. -/
theorem Balanced.of_kept {cb : Callbacks K A} {t₁ t₂ : rbtree_t P K A} {T₁ T₂ : CTree P} {r : Option (rbtree_t P K A)}
    (h : Kept cb t₁ t₂ T₁ T₂) (hb : Balanced cb t₂ T₂ r) : Balanced cb t₁ T₁ r := by
  obtain ⟨t', T', hr, hk, hv⟩ := hb
  exact ⟨t', T', hr, h.trans hk, hv⟩

variable [DecidableEq P] {up : Ctx P}

theorem fromParent_eq (h : RepC t.node t.root (.step d c p sib up) (some q)) (hq : q ∉ sib.inorder) :
    RBNODE_FROM_PARENT t p q = d := by
  obtain ⟨-, h2, h3, -⟩ := h
  have hsib : sib.root ≠ some q := fun hr => hq (root_mem hr)
  unfold RBNODE_FROM_PARENT
  cases d with
  | left => rw [show Dir.right = Dir.left.opp from rfl, h3, if_neg hsib]
  | right => rw [h2, if_pos rfl]

theorem hasChild_eq (h : RepC t.node t.root (.step d c p sib up) (some q)) : t.hasChild p q = true := by
  obtain ⟨-, h2, -⟩ := h
  unfold rbtree_t.hasChild
  cases d <;> simp [h2]

/-! ## The cases of the loop -/

section cases
variable (cb : Callbacks K A) {fuel : Nat} {t : rbtree_t P K A} {up : Ctx P} {e : Dir} {g p : P}
  {T sib unc : CTree P} {b : Bool} {n : Nat}

/-- The node is on the outer side of its grandparent: one rotation. -/
theorem insert_outer (h : Rep t (up.plug (bin e .black g (bin e .red p T sib) unc)))
    (hfuel : (up.plug (bin e .black g (bin e .red p T sib) unc)).inorder.length < fuel)
    (hup : CtxValid up b (n + 1)) (hunc : Valid unc .black n) (hsib : Valid sib .black n) (hT : Valid T .red n) :
    Balanced cb t (up.plug (bin e .black g (bin e .red p T sib) unc))
      ((rbtree_rotate cb fuel t g e.opp).bind fun t => some ((t.setColor p .black).setColor g .red)) := by
  have hshape : bin e .black g (bin e .red p T sib) unc = bin e.opp .black g unc (bin e.opp .red p sib T) := by
    rw [bin_opp, bin_opp]
  rw [hshape] at h hfuel ⊢
  obtain ⟨t1, ht1, hk1⟩ := rotate_spec cb h hfuel
  have hk2 := setColor_spec cb hk1.rep .black
  have hk3 := setColor_spec cb (C := .step e.opp .black p T up) hk2.rep .red
  rw [ht1]
  refine ⟨_, up.plug (bin e.opp .black p (bin e.opp .red g unc sib) T), rfl, (hk1.trans hk2).trans hk3, ?_⟩
  exact Valid.plug_blacken hup ((hunc.binRed e.opp g hsib).binBlack e.opp p hT) fun h => by cases h

/-- The node is on the inner side: a rotation brings it to the outer side. -/
theorem insert_inner {x : P} {ta tb : CTree P}
    (h : Rep t (up.plug (bin e .black g (bin e .red p sib (bin e .red x ta tb)) unc)))
    (hfuel : (up.plug (bin e .black g (bin e .red p sib (bin e .red x ta tb)) unc)).inorder.length < fuel)
    (hup : CtxValid up b (n + 1)) (hunc : Valid unc .black n) (hsib : Valid sib .black n)
    (hT : Valid (bin e .red x ta tb) .red n) :
    Balanced cb t (up.plug (bin e .black g (bin e .red p sib (bin e .red x ta tb)) unc))
      ((rbtree_rotate cb fuel t p e).bind fun t => ((t.node g).children e).bind fun parent =>
        (rbtree_rotate cb fuel t g e.opp).bind fun t => some ((t.setColor parent .black).setColor g .red)) := by
  obtain ⟨t1, ht1, hk1⟩ := rotate_spec cb (C := .step e .black g unc up) h hfuel
  have hg : (t1.node g).children e = some x := by
    have := hk1.rep.plug.1.2.1
    rwa [root_bin] at this
  obtain ⟨-, hta, htb⟩ := valid_bin_red.1 hT
  rw [ht1]
  refine Balanced.of_kept hk1 ?_
  simp only [bind_some, hg]
  exact insert_outer cb hk1.rep (hk1.inorder ▸ hfuel) hup hunc htb (hsib.binRed e p hta)

/-- The uncle is red: the parent and the uncle take the colour of the grandparent. -/
theorem insert_recolor {u : P} {ul ur : CTree P}
    (h : Rep t (up.plug (bin e .black g (bin d .red p T sib) (.node .red ul u ur)))) :
    Kept cb t (((t.setColor p .black).setColor u .black).setColor g .red)
      (up.plug (bin e .black g (bin d .red p T sib) (.node .red ul u ur)))
      (up.plug (bin e .red g (bin d .black p T sib) (.node .black ul u ur))) := by
  have hk1 := setColor_spec cb (C := .step e .black g (.node .red ul u ur) up) h .black
  have hk2 : Kept cb _ ((t.setColor p .black).setColor u .black) _ _ :=
    setColor_spec cb (C := .step e.opp .black g (bin d .black p T sib) up) (d := .left)
      (by rw [plug_step_opp]; exact hk1.rep) .black
  rw [plug_step_opp, plug_step_opp] at hk2
  exact (hk1.trans hk2).trans (setColor_spec cb hk2.rep .red)

end cases

/-! ## The loop -/

variable {fuel : Nat}

theorem insert_fixup_spec (cb : Callbacks K A) {x : P}
    {b : Bool} {m : Nat} (h : Rep t (Ctx.plug (.step d c p sib up) T))
    (hfuel : (Ctx.plug (.step d c p sib up) T).inorder.length < fuel) (hn : up.path.length < n)
    (hx : T.root = some x) (hT : Valid T .red m) (hC : CtxValid (.step d c p sib up) b m) :
    Balanced cb t (Ctx.plug (.step d c p sib up) T) (rbtree_insert_fixup cb fuel n t x p) := by
  induction n generalizing t d c p x T sib up b m with
  | zero => cases hn
  | succ n ih =>
    obtain ⟨hrC, hrT⟩ := h.plug
    obtain ⟨hpar, hchild, hother, hcol, hrsib, hrup⟩ := hrC
    unfold rbtree_insert_fixup
    rw [hcol]
    cases hC with
    | black hup hsib => exact ⟨t, _, rfl, h.kept, Valid.plug_blacken (.black hup hsib) hT fun _ => rfl⟩
    | red hup hsib =>
      rw [if_neg (by decide), hpar]
      cases hup with
      | top =>
        exact ⟨_, _, rfl, setColor_spec cb (C := .top) h .black, (hT.binBlack d p hsib).blacken⟩
      | @black e g unc up _ b' cu hup hunc =>
        have hnd : (Ctx.plug (.step e .black g unc up) (bin d .red p T sib)).inorder.Nodup := h.nodup
        have hfrom := fromParent_eq hrup (not_mem_sibling hnd (mem_inorder_bin.2 (.inl rfl)))
        have hxsib : sib.root ≠ some x := fun hr => not_mem_sibling h.nodup (root_mem hx) (root_mem hr)
        simp only [parent, require, hasChild_eq hrup, if_true, hfrom, hrup.2.2.1, isBlack_root hrup.2.2.2.2.1 hunc,
          bind, bind_some, pure]
        cases cu with
        | black =>
          simp only [decide_true, if_true]
          rcases e.eq_or_opp d with rfl | rfl
          · rw [if_neg (by rw [hother]; exact hxsib)]
            exact insert_outer cb h hfuel hup hunc hsib hT
          · rw [if_pos (by rw [hchild, hx])]
            cases T with
            | nil => cases hT
            | node ct l y r =>
              obtain rfl := some.inj hx
              obtain ⟨ta, tb, hab⟩ := node_eq_bin e ct l y r
              rw [hab] at h hfuel hT ⊢
              obtain rfl : ct = .red := by
                cases ct with
                | red => rfl
                | black => exact absurd (valid_bin_black.1 hT).1 (by decide)
              rw [plug, plug, bin_opp] at h hfuel ⊢
              exact insert_inner cb h hfuel hup hunc hsib hT
        | red =>
          cases hunc with
          | @red ul ur u _ hul hur =>
            have hk := insert_recolor cb h
            refine Balanced.of_kept hk ?_
            have hT' : Valid (bin e .red g (bin d .black p T sib) (.node .black ul u ur)) .red (m + 1) :=
              (hT.binBlack d p hsib).binRed e g (.black hul hur)
            obtain ⟨hrC', hrT'⟩ := hk.rep.plug
            rw [root_bin] at hrC'
            simp only [root, bind_some, (repT_bin.1 hrT').1]
            cases up with
            | top => exact ⟨_, _, rfl, hk.rep.kept, hT'.blacken⟩
            | step e' c' p' sib' up' =>
              simp only [parent, hasChild_eq hrC', if_true, bind_some]
              refine ih hk.rep (hk.inorder ▸ hfuel) ?_ (root_bin _ _ _ _ _) hT' hup
              simp only [path, length_cons] at hn
              omega

/-! ## Insertion -/

/-- What `rbtree_insert` does. -/
structure Inserted (cb : Callbacks K A) (t t' : rbtree_t P K A) (T T' : CTree P) (node : P) : Prop where
  rep : Rep t' T'
  key : t'.key = t.key
  valid : ∃ m, Valid T' .black m
  out : ∀ q, q ≠ node → q ∉ T.inorder → t'.node q = t.node q
  place : ∃ before after, T.inorder = before ++ after ∧ T'.inorder = before ++ node :: after ∧
    (IsCompare cb.compare → Sorted cb t.key T.inorder → Fits cb t.key node before after)
  fresh : (∀ q ∈ T.inorder, Fresh cb t q) → T ≠ .nil ∨ Fresh cb t node → ∀ q ∈ T'.inorder, Fresh cb t' q

theorem blackenRoot_spec (cb : Callbacks K A) (h : Rep t T) : Kept cb t t.blackenRoot T T.blacken := by
  unfold rbtree_t.blackenRoot
  rw [h.root]
  cases T with
  | nil => exact h.kept
  | node c l p r => exact setColor_spec cb (C := .top) (d := .left) h .black

/-- The new node in memory, below its parent. -/
theorem attach_spec (cb : Callbacks K A) (h : Rep t (Ctx.plug (.step d c p sib up) .nil))
    (hnew : node ∉ (Ctx.plug (.step d c p sib up) .nil).inorder) (hch : ∀ e, (t.node node).children e = none)
    (hfuel : (Ctx.plug (.step d c p sib up) .nil).inorder.length + 1 < fuel) :
    ∃ t', rbtree_update_to_root cb fuel
        (((t.setColor node .red).setParent node (some p)).setChild p d (some node)) (some node) = some t' ∧
      Rep t' (Ctx.plug (.step d c p sib up) (.node .red .nil node .nil)) ∧ t'.key = t.key ∧
      (∀ q, q ≠ node → q ∉ (Ctx.plug (.step d c p sib up) .nil).inorder → t'.node q = t.node q) ∧
      ((∀ q ∈ (Ctx.plug (.step d c p sib up) .nil).inorder, Fresh cb t q) →
        ∀ q ∈ (Ctx.plug (.step d c p sib up) (.node .red .nil node .nil)).inorder, Fresh cb t' q) := by
  set C : Ctx P := .step d c p sib up with hCdef
  have hperm := perm_inorder_plug C (.node .red .nil node .nil)
  have hmem : ∀ q, q ∈ (Ctx.plug C .nil).inorder ↔ q ∈ C.nodes := fun q => (perm_inorder_plug C .nil).mem_iff
  have hndC : C.nodes.Nodup := (perm_inorder_plug C .nil).nodup_iff.1 h.nodup
  have hnewC : node ∉ C.nodes := fun hm => hnew ((hmem node).2 hm)
  have hpC : p ∈ C.nodes := parent_mem rfl
  have hnp : node ≠ p := fun he => hnewC (he ▸ hpC)
  set t1 := (t.setColor node .red).setParent node (some p) with ht1
  have h1q : ∀ q, q ≠ node → t1.node q = t.node q := fun q hq => by
    rw [ht1, node_setParent_of_ne _ _ hq, node_setColor_of_ne _ _ hq]
  have h1n : t1.node node = { t.node node with parent := some p, color := .red } := by
    rw [ht1, node_setParent_self, node_setColor_self]
  have hC1 : RepC t1.node t1.root C none := h.plug.1.congr fun q hq => h1q q fun he => hnewC (he ▸ hq)
  have hC2 := hC1.setChild (some node) hndC
  have h2q : ∀ q, q ≠ p → (t1.setChild p d (some node)).node q = t1.node q :=
    fun q hq => node_setChild_of_ne t1 d (some node) hq
  have h2n := (h2q node hnp).trans h1n
  have hrep : Rep (t1.setChild p d (some node)) (C.plug (.node .red .nil node .nil)) := by
    refine Rep.of_plug hC2 ⟨?_, ?_, ?_, ?_, trivial, trivial⟩ (hperm.nodup_iff.2 (nodup_cons.2 ⟨hnewC, hndC⟩))
    · rw [h2n]
      rfl
    · rw [h2n]
      exact hch .left
    · rw [h2n]
      exact hch .right
    · rw [h2n]
  have hlen : (C.plug (.node .red .nil node .nil)).inorder.length < fuel := by
    have h1 := hperm.length_eq
    have h2 := (perm_inorder_plug C .nil).length_eq
    simp only [inorder, nil_append, length_append, length_cons, length_nil] at h1 h2
    omega
  obtain ⟨t', ht', hw⟩ := update_to_root_spec cb hrep rfl hlen
  refine ⟨t', ht', hw.rep, hw.key, fun q hqn hq => ?_, fun hf q hq => hw.fresh q hq ?_⟩
  · rw [hw.node, h2q q fun he => hq ((hmem q).2 (he ▸ hpC)), h1q q hqn]
  · by_cases hqS : q ∈ node :: C.path
    · exact .inr hqS
    · simp only [hCdef, path, mem_cons, not_or] at hqS
      rw [hperm.mem_iff] at hq
      have hqC : q ∈ C.nodes := (mem_cons.1 hq).resolve_left hqS.1
      refine .inl ((hf q ((hmem q).2 hqC)).congr ?_ rfl rfl fun _ _ _ => rfl)
      rw [h2q q hqS.2.1, h1q q hqS.1]

theorem insert_spec (cb : Callbacks K A) {m : Nat}
    (h : Rep t T) (hv : Valid T .black m) (hnew : node ∉ T.inorder) (hnode : t.node node = {})
    (hfuel : T.inorder.length + 1 < fuel) :
    ∃ t' T', rbtree_insert cb fuel t node = some t' ∧ Inserted cb t t' T T' node := by
  obtain ⟨C, hdesc, hplug, hfit⟩ := insert_descend_spec cb (C := .top) node h (n := fuel) (by omega)
  have hdesc' : rbtree_insert_descend cb t node fuel t.root none .left = some (C.parent, C.side .left) :=
    h.root ▸ hdesc
  have hchild : ∀ e, (t.node node).children e = none := fun e => by rw [hnode]
  have hplace : T.inorder = C.before ++ C.after := by
    have := inorder_plug C .nil
    rw [hplug] at this
    simpa [plug] using this
  have hfits : IsCompare cb.compare → Sorted cb t.key T.inorder → Fits cb t.key node C.before C.after :=
    fun hcmp hs => hfit hcmp hs ⟨by simp [before], by simp [after]⟩
  unfold rbtree_insert
  simp only [require, hnode, if_true, bind, bind_some, hdesc', pure]
  cases C with
  | top =>
    obtain rfl : CTree.nil = T := hplug
    -- The empty tree: the node becomes the root, and `update` is not called.
    have hrep : Rep { (t.setColor node .red).setParent node none with root := some node }
        (CTree.node .red .nil node .nil) := by
      refine ⟨rfl, ⟨?_, ?_, ?_, ?_, trivial, trivial⟩, by simp⟩
      · exact congrArg rbnode_t.parent (node_setParent_self _ _ _)
      all_goals
        simp [hnode, root]
    have hk := blackenRoot_spec cb hrep
    refine ⟨_, _, rfl, hk.rep, hk.key, ⟨1, .black .nil .nil⟩, fun q hq _ => ?_, ⟨[], [], rfl, rfl, hfits⟩,
      fun _ hf => hk.fresh fun q hq => ?_⟩
    · refine (hk.out q (by simpa using hq)).trans ?_
      simp [hq]
    · obtain rfl : q = node := by simpa using hq
      refine (hf.resolve_left fun hne => hne rfl).congr ?_ rfl rfl fun _ _ _ => rfl
      simp
  | step d c p sib up =>
    subst hplug
    obtain ⟨b, k, c', hCv, hnil, -⟩ := hv.unplug
    cases hnil
    obtain ⟨t1, ht1, hrep1, hkey1, hout1, hfresh1⟩ := attach_spec cb h hnew hchild hfuel
    have hlink : (((t.setColor node .red).setParent node (some p)).node p).children d = none := by
      have hnp : p ≠ node := by
        rintro rfl
        exact hnew ((perm_inorder_plug _ _).mem_iff.2 (mem_append_right _ (parent_mem rfl)))
      rw [node_setParent_of_ne _ _ hnp, node_setColor_of_ne _ _ hnp]
      exact h.plug.1.2.1
    have hperm := perm_inorder_plug (.step d c p sib up) (.node .red .nil node .nil)
    have hlen := hperm.length_eq
    have hlen0 := (perm_inorder_plug (.step d c p sib up) .nil).length_eq
    simp only [inorder, nil_append, length_append, length_cons, length_nil] at hlen hlen0
    have hup : up.path.length < fuel := by
      have := length_path_le (.step d c p sib up)
      simp only [path, length_cons] at this
      omega
    have hfuel1 : (Ctx.plug (.step d c p sib up) (.node .red .nil node .nil)).inorder.length < fuel := by omega
    obtain ⟨t2, T2, ht2, hk2, hv2⟩ := insert_fixup_spec cb hrep1 hfuel1 hup rfl (.red .nil .nil) hCv
    have hk := hk2.trans (blackenRoot_spec cb hk2.rep)
    refine ⟨t2.blackenRoot, T2.blacken, ?_, hk.rep, hk.key.trans hkey1, hv2, fun q hqn hq => ?_,
      ⟨_, _, hplace, ?_, hfits⟩, fun hf _ => hk.fresh (hfresh1 hf)⟩
    · simp only [rbtree_insert_at, parent, side, require, hlink, if_true, bind, bind_some, ht1, ht2]
    · rw [hk.out q, hout1 q hqn hq]
      intro hm
      rw [hperm.mem_iff] at hm
      rcases mem_cons.1 hm with rfl | hm
      · exact hqn rfl
      · exact hq ((perm_inorder_plug _ _).mem_iff.2 hm)
    · rw [hk.inorder, inorder_plug]
      simp

end Patchwork.RbTree
