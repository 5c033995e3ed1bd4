import Patchwork.Utils.RbFix
/-!
# Removal

Taking out a black leaf leaves a hole that is one black node short. The loop of
`rbtree_remove` keeps such a hole, filled by a valid tree of black height `n`
where the context needs `n + 1`, and moves it up or closes it with rotations.
-/

namespace Patchwork.RbTree

open List Option Function Lib.RedBlack CTree Ctx

variable {P K A : Type} [DecidableEq P]

/-! ## The rounds of the fix-up -/

/-- A context that takes a node of colour `c` over subtrees of black height
`n + 1`. -/
def Takes (up : Ctx P) (c : Color) (n : Nat) : Prop :=
  match c with
  | .red => CtxValid up true (n + 1)
  | .black => ∃ b, CtxValid up b (n + 2)

variable {t : rbtree_t P K A} {p y : P} {d : Dir}

section rounds
variable (cb : Callbacks K A) {fuel : Nat}

/-- The sibling is red: the round goes on as one that begins with the rotated tree. -/
theorem fixup_of_red (n : Nat) {t' : rbtree_t P K A} {z : P} (hy : (t.node p).children d.opp = some y)
    (hcol : (t.node y).color = .red) (hp : (t.node p).color = .black) (hrot : rbtree_rotate cb fuel t p d = some t')
    (hz : (((t'.setColor p .red).setColor y .black).node p).children d.opp = some z)
    (hzcol : (((t'.setColor p .red).setColor y .black).node z).color = .black) :
    rbtree_remove_fixup cb fuel (n + 1) t p d =
      rbtree_remove_fixup cb fuel (n + 1) ((t'.setColor p .red).setColor y .black) p d := by
  unfold rbtree_remove_fixup
  simp only [hy, bind, bind_some, hcol, if_true, require, hp, hrot, hz, hzcol, pure, reduceCtorEq, if_false]

variable {t : rbtree_t P K A} {up : Ctx P} {d : Dir} {c : Color} {p y : P} {s ya yb : CTree P} {n : Nat} {cs : Color}

/-- Only the close nephew is red: a rotation makes it the sibling. -/
theorem remove_close {z : P} {za zb : CTree P}
    (h : Rep t (up.plug (bin d c p s (bin d .black y (bin d .red z za zb) yb))))
    (hfuel : (up.plug (bin d c p s (bin d .black y (bin d .red z za zb) yb))).inorder.length < fuel) :
    ∃ t', rbtree_rotate cb fuel t y d.opp = some t' ∧
      Kept cb t ((t'.setColor y .red).setColor z .black)
        (up.plug (bin d c p s (bin d .black y (bin d .red z za zb) yb)))
        (up.plug (bin d c p s (bin d .black z za (bin d .red y zb yb)))) := by
  have hold : up.plug (bin d c p s (bin d .black y (bin d .red z za zb) yb)) =
      Ctx.plug (.step d.opp c p s up) (bin d.opp .black y yb (bin d.opp .red z zb za)) := by
    rw [plug_step_opp, bin_opp, bin_opp]
  have hnew : up.plug (bin d c p s (bin d .black z za (bin d .red y zb yb))) =
      Ctx.plug (.step d.opp c p s up) (bin d.opp .black z (bin d.opp .red y yb zb) za) := by
    rw [plug_step_opp, bin_opp, bin_opp]
  rw [hold] at h hfuel ⊢
  rw [hnew]
  obtain ⟨t1, ht1, hk1⟩ := rotate_spec cb h hfuel
  have hk2 := setColor_spec cb (C := .step d.opp .red z za (.step d.opp c p s up)) hk1.rep .red
  have hk3 : Kept cb _ ((t1.setColor y .red).setColor z .black) _ _ :=
    setColor_spec cb (C := .step d.opp c p s up) hk2.rep .black
  exact ⟨t1, ht1, (hk1.trans hk2).trans hk3⟩

/-- What the loop does from a hole that is one black node short. -/
def FixupOk (fuel n : Nat) : Prop :=
  ∀ (t : rbtree_t P K A) (d : Dir) (c : Color) (p : P) (s sib : CTree P) (up : Ctx P) (b : Bool) (cs : Color) (m : Nat),
    Rep t (Ctx.plug (.step d c p sib up) s) → (Ctx.plug (.step d c p sib up) s).inorder.length < fuel →
    up.path.length < n → Valid s cs m → CtxValid (.step d c p sib up) b (m + 1) →
    Balanced cb t (Ctx.plug (.step d c p sib up) s) (rbtree_remove_fixup cb fuel n t p d)

section
variable (h : Rep t (up.plug (bin d c p s (bin d .black y ya yb))))
  (hfuel : (up.plug (bin d c p s (bin d .black y ya yb))).inorder.length < fuel) (hup : Takes up c n)
  (hs : Valid s cs n)
include h hfuel hup hs

/-- The distant nephew is red: one rotation closes the hole. -/
theorem remove_distant {ca : Color} (ha : Valid ya ca n) (hb : Valid yb .red n) :
    Balanced cb t (up.plug (bin d c p s (bin d .black y ya yb)))
      (((t.node y).children d.opp).bind fun nephew =>
        (require ((t.node nephew).color = .red)).bind fun _ => (rbtree_rotate cb fuel t p d).bind fun t =>
          match ((t.setColor y (t.node p).color).setColor p .black |>.node y).children d.opp with
          | none => some ((t.setColor y (t.node p).color).setColor p .black)
          | some nephew => some (((t.setColor y (t.node p).color).setColor p .black).setColor nephew .black)) := by
  obtain ⟨w, wa, wb, rfl, hwa, hwb⟩ := hb.exists_bin_red d
  obtain ⟨-, -, -, -, -, hry⟩ := repT_bin.1 h.plug.2
  obtain ⟨-, -, hyw, -, -, hrw⟩ := repT_bin.1 hry
  have hwcol := (repT_bin.1 hrw).2.2.2.1
  rw [root_bin] at hyw
  obtain ⟨t1, ht1, hk1⟩ := rotate_spec cb h hfuel
  have hpcol : (t1.node p).color = c := (repT_bin.1 (repT_bin.1 hk1.rep.plug.2).2.2.2.2.1).2.2.2.1
  have hk2 := setColor_spec cb hk1.rep c
  have hk3 := setColor_spec cb (C := .step d c y (bin d .red w wa wb) up) hk2.rep .black
  have hyw' : (((t1.setColor y c).setColor p .black).node y).children d.opp = some w := by
    have := (repT_bin.1 (hk3.rep.plug (C := up)).2).2.2.1
    rwa [root_bin] at this
  have hk4 : Kept cb _ (((t1.setColor y c).setColor p .black).setColor w .black) _ _ :=
    setColor_spec cb (C := .step d.opp c y (bin d .black p s ya) up) (d := d)
      (by rw [plug_step_opp]; exact hk3.rep) .black
  rw [plug_step_opp, plug_step_opp] at hk4
  simp only [hyw, bind_some, require, hwcol, if_true, ht1, hpcol, hyw']
  refine ⟨_, _, rfl, ((hk1.trans hk2).trans hk3).trans hk4, ?_⟩
  have hl := hs.binBlack d p ha
  have hr := hwa.binBlack d w hwb
  cases c with
  | red => exact Valid.plug_blacken hup (hl.binRed d y hr) fun _ => rfl
  | black =>
    obtain ⟨b, hup⟩ := hup
    exact Valid.plug_blacken hup (hl.binBlack d y hr) (by rintro ⟨⟩)

/-- Both nephews are black: the sibling becomes red, and the hole moves up. -/
theorem remove_recolor {k : Nat} (ha : Valid ya .black n) (hb : Valid yb .black n) (ih : FixupOk (P := P) cb fuel k)
    (hk : c = .black → up.path.length ≤ k) :
    Balanced cb t (up.plug (bin d c p s (bin d .black y ya yb)))
      (match ((t.setColor y .red).node p).parent with
        | none => some (t.setColor y .red)
        | some parent => (require ((t.setColor y .red).hasChild parent p)).bind fun _ =>
          if ((t.setColor y .red).node p).color = .red then some ((t.setColor y .red).setColor p .black)
          else rbtree_remove_fixup cb fuel k (t.setColor y .red) parent
            (RBNODE_FROM_PARENT (t.setColor y .red) parent p)) := by
  have hk1 : Kept cb t (t.setColor y .red) (up.plug (bin d c p s (bin d .black y ya yb)))
      (up.plug (bin d c p s (bin d .red y ya yb))) := by
    have := setColor_spec cb (C := .step d.opp c p s up) (by rw [plug_step_opp]; exact h) .red
    rwa [plug_step_opp, plug_step_opp] at this
  refine Balanced.of_kept hk1 ?_
  have hr := hk1.rep
  obtain ⟨hrC, hrT⟩ := hr.plug
  obtain ⟨hpar, -, -, hcol, -, -⟩ := repT_bin.1 hrT
  rw [root_bin] at hrC
  rw [hpar, hcol]
  have hsub := ha.binRed d y hb
  cases up with
  | top => exact ⟨_, _, rfl, hr.kept, n + 1, by rw [plug, blacken_bin]; exact hs.binBlack d p hsub⟩
  | step e cg g gs up2 =>
    simp only [parent, require, hasChild_eq hrC, if_true, bind_some]
    cases c with
    | red => exact ⟨_, _, rfl, setColor_spec cb hr .black, Valid.plug_blacken hup (hs.binBlack d p hsub) (by rintro ⟨⟩)⟩
    | black =>
      obtain ⟨b, hup⟩ := hup
      rw [if_neg (by decide), fromParent_eq hrC (not_mem_sibling hr.nodup (mem_inorder_bin.2 (.inl rfl)))]
      refine ih _ _ _ _ _ _ _ b .black (n + 1) hr (hk1.inorder ▸ hfuel) ?_ (hs.binBlack d p hsub) hup
      have := hk rfl
      simp only [path, length_cons] at this
      omega

/-- A round with a black sibling. -/
theorem fixup_of_black {k : Nat} {c₁ c₂ : Color} (ha : Valid ya c₁ n) (hb : Valid yb c₂ n)
    (ih : FixupOk (P := P) cb fuel k) (hk : c = .black → up.path.length ≤ k) :
    Balanced cb t (up.plug (bin d c p s (bin d .black y ya yb))) (rbtree_remove_fixup cb fuel (k + 1) t p d) := by
  obtain ⟨-, -, hy, -, -, hry⟩ := repT_bin.1 h.plug.2
  obtain ⟨-, hy1, hy2, hcol, hra, hrb⟩ := repT_bin.1 hry
  rw [root_bin] at hy
  have hclose := isBlack_root hra ha
  have hdistant := isBlack_root hrb hb
  rw [← hy1] at hclose
  rw [← hy2] at hdistant
  unfold rbtree_remove_fixup
  simp only [hy, bind, bind_some, hcol, reduceCtorEq, if_false, pure, hclose, hdistant]
  cases c₂ with
  | red =>
    exact remove_distant cb h hfuel hup hs ha hb
  | black =>
    cases c₁ with
    | black =>
      exact remove_recolor cb h hfuel hup hs ha hb ih hk
    | red =>
      obtain ⟨z, za, zb, rfl, hza, hzb⟩ := ha.exists_bin_red d
      obtain ⟨t1, ht1, hk1⟩ := remove_close cb h hfuel
      have hzcol := (repT_bin.1 hra).2.2.2.1
      simp only [hy1, root_bin, bind_some, require, hzcol, if_true, ht1]
      refine Balanced.of_kept hk1 ?_
      exact remove_distant cb hk1.rep (hk1.inorder ▸ hfuel) hup hs hza (hzb.binRed d y hb)

end

/-- The sibling is red: a rotation gives the hole a black one. -/
theorem remove_red_sibling (h : Rep t (up.plug (bin d .black p s (bin d .red y ya yb))))
    (hfuel : (up.plug (bin d .black p s (bin d .red y ya yb))).inorder.length < fuel) :
    ∃ t', rbtree_rotate cb fuel t p d = some t' ∧
      Kept cb t ((t'.setColor p .red).setColor y .black) (up.plug (bin d .black p s (bin d .red y ya yb)))
        (Ctx.plug (.step d .black y yb up) (bin d .red p s ya)) := by
  obtain ⟨t1, ht1, hk1⟩ := rotate_spec cb h hfuel
  have hk2 := setColor_spec cb (C := .step d .red y yb up) hk1.rep .red
  have hk3 := setColor_spec cb (C := up) hk2.rep .black
  exact ⟨t1, ht1, (hk1.trans hk2).trans hk3⟩

theorem remove_fixup_spec (fuel n : Nat) : FixupOk (P := P) cb fuel n := by
  induction n with
  | zero => intro _ _ _ _ _ _ _ _ _ _ _ _ hn; cases hn
  | succ n ih =>
    intro t d c p s sib up b cs m h hfuel hn hs hC
    have hrT := h.plug (C := up).2
    obtain ⟨-, -, hsib, hcol, -, hrsib⟩ := repT_bin.1 hrT
    cases hC with
    | red hup hv =>
      obtain ⟨y, ya, yb, c₁, c₂, rfl, hya, hyb⟩ := hv.exists_bin d
      exact fixup_of_black cb h hfuel hup hs hya hyb ih nofun
    | @black _ _ _ _ _ b' csib hup hv =>
      cases csib with
      | black =>
        obtain ⟨y, ya, yb, c₁, c₂, rfl, hya, hyb⟩ := hv.exists_bin d
        exact fixup_of_black cb h hfuel ⟨b', hup⟩ hs hya hyb ih fun _ => by omega
      | red =>
        obtain ⟨y, ya, yb, rfl, hya, hyb⟩ := hv.exists_bin_red d
        obtain ⟨z, za, zb, c₁, c₂, rfl, hza, hzb⟩ := hya.exists_bin d
        obtain ⟨t1, ht1, hk1⟩ := remove_red_sibling cb h hfuel
        obtain ⟨-, -, hz, -, -, hrz⟩ := repT_bin.1 hk1.rep.plug.2
        rw [fixup_of_red cb n (hsib.trans (root_bin _ _ _ _ _)) (repT_bin.1 hrsib).2.2.2.1 hcol ht1
          (hz.trans (root_bin _ _ _ _ _)) (repT_bin.1 hrz).2.2.2.1]
        refine Balanced.of_kept hk1 ?_
        exact fixup_of_black cb hk1.rep (hk1.inorder ▸ hfuel) (.black hup hyb) hs hza hzb ih nofun

end rounds

/-! ## Taking a node out -/

variable {fuel : Nat} {x : P}

/-- What `rbtree_remove_sanitize` does to a node that is no longer linked: the
values above its old place are computed again, and its fields are reset. -/
theorem sanitize_spec (cb : Callbacks K A) {C : Ctx P} {T : CTree P}
    (h : Rep t (C.plug T)) (hpar : (t.node x).parent = C.parent) (hx : x ∉ (C.plug T).inorder)
    (hch : ∀ d, t.childGone x d = true) (hfuel : (C.plug T).inorder.length < fuel) :
    ∃ t', rbtree_remove_sanitize cb fuel t x = some t' ∧ Rep t' (C.plug T) ∧ t'.key = t.key ∧ t'.node x = {} ∧
      (∀ q, q ≠ x → t'.node q = t.node q) ∧
      ((∀ q ∈ (C.plug T).inorder, C.parent ≠ some q → Fresh cb t q) → ∀ q ∈ (C.plug T).inorder, Fresh cb t' q) := by
  have hlinked : C.parent = none ∨ t.linked x = false := by
    cases C with
    | top => exact .inl rfl
    | step d c p sib up =>
      right
      -- Both children of the parent are nodes of the tree, or missing.
      have hp : p ∈ (Ctx.plug (.step d c p sib up) T).inorder :=
        (perm_inorder_plug _ _).mem_iff.2 (mem_append_right _ (parent_mem rfl))
      have hne : ∀ e, (t.node p).children e ≠ some x := fun e he => hx (h.child hp he).1
      unfold rbtree_t.linked
      rw [hpar]
      simp only [parent, rbtree_t.hasChild, decide_eq_false_iff_not, not_or]
      exact ⟨hne .left, hne .right⟩
  -- The walk up from the old parent, if there is one.
  obtain ⟨t1, ht1, hrep1, hnode1, hkey1, hfresh1⟩ : ∃ t1, rbtree_update_to_root cb fuel t C.parent = some t1 ∧
      Rep t1 (C.plug T) ∧ t1.node = t.node ∧ t1.key = t.key ∧
      ((∀ q ∈ (C.plug T).inorder, C.parent ≠ some q → Fresh cb t q) → ∀ q ∈ (C.plug T).inorder, Fresh cb t1 q) := by
    cases C with
    | top =>
      refine ⟨t, ?_, h, rfl, rfl, fun hf q hq => hf q hq (by rintro ⟨⟩)⟩
      unfold rbtree_update_to_root
      cases cb.update <;> rfl
    | step d c p sib up =>
      obtain ⟨t1, ht1, hw⟩ := update_to_root_spec cb (C := up) (T := bin d c p T sib) h (root_bin _ _ _ _ _) hfuel
      refine ⟨t1, ht1, hw.rep, hw.node, hw.key, fun hf q hq => hw.fresh q hq ?_⟩
      rcases eq_or_ne p q with rfl | hpq
      · exact .inr mem_cons_self
      · exact .inl (hf q hq fun hs => hpq (Option.some.inj hs))
  have hne : ∀ q ∈ (C.plug T).inorder, q ≠ x := fun q hq he => hx (he ▸ hq)
  refine ⟨{ t1 with node := update t1.node x {} }, ?_, ⟨hrep1.root, ?_, hrep1.nodup⟩, hkey1, ?_, fun q hq => ?_,
    fun hf q hq => (hfresh1 hf q hq).congr ?_ rfl rfl fun _ _ _ => rfl⟩
  · simp only [rbtree_remove_sanitize, require, hlinked, hch, if_true, bind, bind_some, hpar, ht1, pure]
  · exact hrep1.mem.congr fun q hq => update_of_ne (hne q hq) _ _
  · exact update_self ..
  · rw [← hnode1]
    exact update_of_ne hq _ _
  · exact congrArg rbnode_t.children (update_of_ne (hne q hq) _ _)

/-- What taking a node out does, before the colours are put right. -/
structure Unlinked (cb : Callbacks K A) (t t' : rbtree_t P K A) (T T' : CTree P) (x : P) : Prop where
  rep : Rep t' T'
  key : t'.key = t.key
  self : t'.node x = {}
  out : ∀ q, q ∉ T.inorder → t'.node q = t.node q
  inorder : T'.inorder = T.inorder.erase x
  fresh : (∀ q ∈ T.inorder, Fresh cb t q) → ∀ q ∈ T'.inorder, Fresh cb t' q

/-- What follows keeps the nodes in their order. -/
theorem Unlinked.of_kept {cb : Callbacks K A} {t₁ t₂ t₃ : rbtree_t P K A} {T₁ T₂ T₃ : CTree P}
    (h : Unlinked cb t₁ t₂ T₁ T₂ x) (hk : Kept cb t₂ t₃ T₂ T₃) (hnd : T₁.inorder.Nodup) : Unlinked cb t₁ t₃ T₁ T₃ x where
  rep := hk.rep
  key := hk.key.trans h.key
  self := (hk.out x (by rw [h.inorder]; exact hnd.not_mem_erase)).trans h.self
  out q hq := (hk.out q fun hm => hq (mem_of_mem_erase (h.inorder ▸ hm))).trans (h.out q hq)
  inorder := hk.inorder.trans h.inorder
  fresh hf := hk.fresh (h.fresh hf)

theorem inorder_eq_erase {T T' : CTree P} {u v : List P} (hT : T.inorder = u ++ x :: v) (hT' : T'.inorder = u ++ v)
    (hnd : T.inorder.Nodup) : T'.inorder = T.inorder.erase x := by
  rw [hT] at hnd ⊢
  rw [erase_middle hnd, hT']

variable {c : Color} {l r : CTree P}

section single
variable (cb : Callbacks K A) {fuel : Nat} {t : rbtree_t P K A} {C : Ctx P} {x : P} {m : Nat}

theorem unlinked_of_gone {X T : CTree P} {t₂ : rbtree_t P K A} (h : Rep t (C.plug X)) (hxX : x ∈ X.inorder)
    (hC : RepC t₂.node t₂.root C T.root) (hT : RepT t₂.node C.parent T)
    (herase : (C.plug T).inorder = (C.plug X).inorder.erase x) (hx : t₂.node x = t.node x)
    (hpar : (t.node x).parent = C.parent) (hgone : ∀ d, t₂.childGone x d = true) (hkey : t₂.key = t.key)
    (haug : t₂.aug = t.aug) (hfuel : (C.plug X).inorder.length < fuel)
    (hout : ∀ q, q ∉ X.inorder → C.parent ≠ some q → t₂.node q = t.node q)
    (hch : ∀ q, C.parent ≠ some q → (t₂.node q).children = (t.node q).children) :
    ∃ t', rbtree_remove_sanitize cb fuel t₂ x = some t' ∧ Unlinked cb t t' (C.plug X) (C.plug T) x := by
  have hlen : (C.plug T).inorder.length < fuel := by
    rw [herase]
    exact Nat.lt_of_le_of_lt length_erase_le hfuel
  obtain ⟨t', ht', hrep, hkey', hself, hout', hfresh⟩ := sanitize_spec cb
    (Rep.of_plug hC hT (herase ▸ h.nodup.erase x)) ((congrArg rbnode_t.parent hx).trans hpar)
    (by rw [herase]; exact h.nodup.not_mem_erase) hgone hlen
  refine ⟨t', ht', hrep, hkey'.trans hkey, hself, fun q hq => ?_, herase, fun hf => hfresh fun q hq hp => ?_⟩
  · rw [(perm_inorder_plug C X).mem_iff, mem_append, not_or] at hq
    rw [hout' q fun he => hq.1 (he ▸ hxX), hout q hq.1 fun hp => hq.2 (parent_mem hp)]
  · exact (hf q (mem_of_mem_erase (herase ▸ hq))).congr (hch q hp) (by rw [hkey]) (by rw [haug]) fun _ _ _ => by rw [haug]

/-- A leaf whose link is gone. -/
theorem leaf_out (h : Rep t (C.plug (.node c .nil x .nil)))
    (hfuel : (C.plug (.node c .nil x .nil)).inorder.length < fuel) {t₁ : rbtree_t P K A}
    (hC : RepC t₁.node t₁.root C none) (hq : ∀ q, C.parent ≠ some q → t₁.node q = t.node q) (hkey : t₁.key = t.key)
    (haug : t₁.aug = t.aug) :
    ∃ t', rbtree_remove_sanitize cb fuel t₁ x = some t' ∧
      Unlinked cb t t' (C.plug (.node c .nil x .nil)) (C.plug .nil) x := by
  have hxC : x ∉ C.nodes := disjoint_of_nodup h.nodup (root_mem rfl)
  have hxp : C.parent ≠ some x := fun hp => hxC (parent_mem hp)
  obtain ⟨hpar, hl, hr, -⟩ := h.plug.2
  have herase : (C.plug .nil).inorder = (C.plug (.node c .nil x .nil)).inorder.erase x :=
    inorder_eq_erase (u := C.before) (v := C.after) (by simp) (by simp)
      h.nodup
  have hx : t₁.node x = t.node x := hq x hxp
  refine unlinked_of_gone cb h (root_mem rfl) hC trivial herase hx hpar (fun d => ?_) hkey haug hfuel
    (fun q _ hp => hq q hp) fun q hp => congrArg rbnode_t.children (hq q hp)
  unfold rbtree_t.childGone
  rw [hx]
  cases d with
  | left => rw [hl]; rfl
  | right => rw [hr]; rfl

theorem leaf_unlink {cp : Color} {sib : CTree P} {up : Ctx P}
    (h : Rep t (Ctx.plug (.step d cp p sib up) (.node c .nil x .nil)))
    (hfuel : (Ctx.plug (.step d cp p sib up) (.node c .nil x .nil)).inorder.length < fuel) :
    RBNODE_FROM_PARENT t p x = d ∧ (t.node p).children d = some x ∧
      ∃ t', rbtree_remove_sanitize cb fuel (t.setChild p d none) x = some t' ∧
        Unlinked cb t t' (Ctx.plug (.step d cp p sib up) (.node c .nil x .nil))
          (Ctx.plug (.step d cp p sib up) .nil) x := by
  have hndC := (nodup_append.1 ((perm_inorder_plug _ _).nodup_iff.1 h.nodup)).2.1
  refine ⟨fromParent_eq h.plug.1 (not_mem_sibling h.nodup (root_mem rfl)), h.plug.1.2.1, ?_⟩
  exact leaf_out cb h hfuel (h.plug.1.setChild none hndC)
    (fun q hq => node_setChild_of_ne t d none fun he => hq (by rw [he]; rfl)) rfl rfl

/-- The root, when it is the only node, is taken out. -/
theorem root_unlink (h : Rep t (.node c .nil x .nil)) (hfuel : 1 < fuel) :
    ∃ t', rbtree_remove_sanitize cb fuel { t with root := none } x = some t' ∧
      Unlinked cb t t' (.node c .nil x .nil) .nil x :=
  leaf_out cb (C := .top) h hfuel rfl (fun _ _ => rfl) rfl rfl

/-- A node whose only child takes its place. -/
theorem child_up {e : Dir} {cy : Color} (h : Rep t (C.plug (bin e c x (.node cy .nil y .nil) .nil)))
    (hfuel : (C.plug (bin e c x (.node cy .nil y .nil) .nil)).inorder.length < fuel) :
    ∃ t', rbtree_remove_sanitize cb fuel
        (((t.setLink C.parent .right x (some y)).setParent y C.parent).setColor y .black) x = some t' ∧
      Unlinked cb t t' (C.plug (bin e c x (.node cy .nil y .nil) .nil)) (C.plug (.node .black .nil y .nil)) x := by
  set X := bin e c x (.node cy .nil y .nil) .nil with hX
  have hxX : x ∈ X.inorder := mem_inorder_bin.2 (.inl rfl)
  have hyX : y ∈ X.inorder := mem_inorder_bin.2 (.inr (.inl (by simp)))
  have hxC : x ∉ C.nodes := disjoint_of_nodup h.nodup hxX
  have hyC : y ∉ C.nodes := disjoint_of_nodup h.nodup hyX
  have hxy : x ≠ y := by
    have := (nodup_bin (nodup_of_plug h.nodup)).1
    simpa using this
  obtain ⟨hC, hT⟩ := h.plug
  obtain ⟨hpar, hch, hother, -, hry, -⟩ := repT_bin.1 hT
  obtain ⟨-, hyl, hyr, -⟩ := hry
  rw [hX, root_bin] at hC
  have hndC := (nodup_append.1 ((perm_inorder_plug _ _).nodup_iff.1 h.nodup)).2.1
  obtain ⟨hC1, h1⟩ := hC.setLink .right (some y) hxC hndC
  have hkey := key_setLink t x .right C.parent (some y)
  generalize t.setLink C.parent .right x (some y) = t1 at hC1 h1 hkey ⊢
  set t2 := (t1.setParent y C.parent).setColor y .black with ht2
  have h2y : t2.node y = { t.node y with parent := C.parent, color := .black } := by
    rw [ht2, node_setColor_self, node_setParent_self, h1 y fun hp => hyC (parent_mem hp)]
  have h2q : ∀ q, q ≠ y → t2.node q = t1.node q := fun q hq => by
    rw [ht2, node_setColor_of_ne _ _ hq, node_setParent_of_ne _ _ hq]
  have h2x : t2.node x = t.node x := (h2q x hxy).trans (h1 x fun hp => hxC (parent_mem hp))
  have herase : (C.plug (.node .black .nil y .nil)).inorder = (C.plug X).inorder.erase x := by
    cases e with
    | left =>
      exact inorder_eq_erase (u := C.before ++ [y]) (v := C.after) (by simp [hX, bin])
        (by simp) h.nodup
    | right =>
      exact inorder_eq_erase (u := C.before) (v := y :: C.after) (by simp [hX, bin])
        (by simp) h.nodup
  refine unlinked_of_gone cb h hxX (hC1.congr fun q hq => h2q q fun he => hyC (he ▸ hq)) ⟨?_, ?_, ?_, ?_, trivial, trivial⟩
    herase h2x hpar (fun d => ?_) hkey.1 hkey.2 hfuel (fun q hq hp => ?_) fun q hp => ?_
  case refine_5 =>
    unfold rbtree_t.childGone
    rw [h2x]
    rcases e.eq_or_opp d with rfl | rfl
    · rw [hch]
      simp only [root, h2y, decide_eq_true_eq]
      exact fun hp => hxC (parent_mem hp)
    · rw [hother]
      rfl
  case refine_6 => rw [h2q q fun he => hq (he ▸ hyX), h1 q hp]
  case refine_7 =>
    rcases eq_or_ne q y with rfl | hqy
    · rw [h2y]
    · rw [h2q q hqy, h1 q hp]
  all_goals simp [h2y, hyl, hyr]

omit [DecidableEq P] in
/-- A node with at most one child, seen from the side of that child: a leaf, or a
black node over a red leaf. -/
theorem single_shape {c' : Color} {n : Nat} (hv : Valid (.node c l x r) c' n) (hlr : l = .nil ∨ r = .nil) :
    (l = .nil ∧ r = .nil) ∨
      c = .black ∧ ∃ e y, CTree.node c l x r = bin e .black x (.node .red .nil y .nil) .nil := by
  -- The side without a child has black height zero, so the other one has as well.
  have hleaf : ∀ {s : CTree P} {k : Color}, Valid s k 0 → s = .nil ∨ ∃ y, s = .node .red .nil y .nil := by
    intro s k hs
    cases hs with
    | nil => exact .inl rfl
    | red h1 h2 =>
      obtain rfl := h1.eq_nil
      obtain rfl := h2.eq_nil
      exact .inr ⟨_, rfl⟩
  cases hv with
  | red hl hr =>
    left
    rcases hlr with rfl | rfl
    · cases hl
      exact ⟨rfl, hr.eq_nil⟩
    · cases hr
      exact ⟨hl.eq_nil, rfl⟩
  | black hl hr =>
    rcases hlr with rfl | rfl
    · cases hl
      rcases hleaf hr with rfl | ⟨y, rfl⟩
      · exact .inl ⟨rfl, rfl⟩
      · exact .inr ⟨rfl, .right, y, rfl⟩
    · cases hr
      rcases hleaf hl with rfl | ⟨y, rfl⟩
      · exact .inl ⟨rfl, rfl⟩
      · exact .inr ⟨rfl, .left, y, rfl⟩

theorem remove_single_spec (h : Rep t (C.plug (.node c l x r)))
    (hv : Valid (C.plug (.node c l x r)) .black m) (hlr : l = .nil ∨ r = .nil)
    (hfuel : (C.plug (.node c l x r)).inorder.length < fuel) :
    ∃ t' T', rbtree_remove_single cb fuel t x = some t' ∧ Unlinked cb t t' (C.plug (.node c l x r)) T' x ∧
      ∃ k, Valid T' .black k := by
  obtain ⟨b, n, c', hCv, hxv, -⟩ := hv.unplug
  obtain ⟨hpar, hl, hr, hcol, hrl, hrr⟩ := h.plug.2
  unfold rbtree_remove_single
  rcases single_shape hxv hlr with ⟨rfl, rfl⟩ | ⟨rfl, e, y, hshape⟩
  · simp only [hl, hr, root, hpar, hcol, bind, pure]
    cases c with
    | red =>
      simp only [require, if_true, bind_some]
      have hvalid : Valid (C.plug .nil) .black m := hv.replace fun c n hx => by
        cases hx with
        | red h1 _ => cases h1; exact ⟨.black, .nil, by rintro ⟨⟩⟩
      cases C with
      | top =>
        obtain ⟨t', ht', hu⟩ := root_unlink cb h hfuel
        exact ⟨t', _, ht', hu, m, hvalid⟩
      | step d cp p sib up =>
        obtain ⟨hfrom, hchild, t', ht', hu⟩ := leaf_unlink cb h hfuel
        refine ⟨t', _, ?_, hu, m, hvalid⟩
        simp only [parent, hfrom, hchild, if_true, bind_some, ht']
    | black =>
      rw [if_neg (by decide)]
      cases C with
      | top =>
        obtain ⟨t', ht', hu⟩ := root_unlink cb h hfuel
        exact ⟨t', _, ht', hu, 0, .nil⟩
      | step d cp p sib up =>
        obtain ⟨hfrom, hchild, t1, ht1, hu⟩ := leaf_unlink cb h hfuel
        obtain ⟨rfl⟩ : n = 1 := by
          cases hxv with
          | black h1 _ => cases h1; rfl
        have hlen : (Ctx.plug (.step d cp p sib up) .nil).inorder.length < fuel := by
          rw [hu.inorder]
          exact Nat.lt_of_le_of_lt length_erase_le hfuel
        have hup : up.path.length < fuel := by
          have h1 := length_path_le (.step d cp p sib up)
          have h2 := (perm_inorder_plug (.step d cp p sib up) .nil).length_eq
          simp only [path, length_cons, length_append] at h1 h2
          omega
        obtain ⟨t2, T2, ht2, hk, k, hvk⟩ := remove_fixup_spec cb fuel fuel t1 d cp p .nil sib up b .black 0 hu.rep hlen
          hup .nil hCv
        refine ⟨t2.blackenRoot, T2.blacken, ?_,
          hu.of_kept (hk.trans (blackenRoot_spec cb hk.rep)) h.nodup, k, hvk⟩
        simp only [parent, hfrom, require, hchild, if_true, bind_some, ht1, ht2]
  · rw [hshape] at h hfuel hv ⊢
    obtain ⟨-, hch, hother, -, hry, -⟩ := repT_bin.1 h.plug.2
    obtain ⟨t', ht', hu⟩ := child_up cb h hfuel
    refine ⟨t', _, ?_, hu, m, hv.replace fun c n hx => ?_⟩
    · cases e with
      | left => simp [hch, root, hcol, hpar, require, hry.2.2.2.1, hry.1, ht']
      | right =>
        rw [show Dir.right.opp = Dir.left from rfl] at hother
        simp [hch, hother, root, hcol, hpar, require, hry.2.2.2.1, hry.1, ht']
    · obtain ⟨rfl, k, _, _, rfl, -, hnil⟩ := valid_bin_black.1 hx
      cases hnil
      exact ⟨.black, .black .nil .nil, id⟩

end single

/-! ## `rbtree_remove` -/

/-- A round of `rbtree_remove` for a node with at most one child. -/
theorem remove_loop_single (cb : Callbacks K A) {n : Nat} {C : Ctx P}
    {m : Nat} (h : Rep t (C.plug (.node c l x r))) (hv : Valid (C.plug (.node c l x r)) .black m)
    (hlr : l = .nil ∨ r = .nil) (hfuel : (C.plug (.node c l x r)).inorder.length < fuel) :
    ∃ t' T', rbtree_remove_loop cb fuel (n + 1) t x = some t' ∧ Unlinked cb t t' (C.plug (.node c l x r)) T' x ∧
      ∃ k, Valid T' .black k := by
  have hx : x ∈ (C.plug (.node c l x r)).inorder :=
    (perm_inorder_plug C _).mem_iff.2 (mem_append_left _ (root_mem rfl))
  obtain ⟨-, hl, hr, -⟩ := h.plug.2
  obtain ⟨t', T', ht', hu⟩ := remove_single_spec cb h hv hlr hfuel
  refine ⟨t', T', ?_, hu⟩
  rw [rbtree_remove_loop, if_neg fun hn => hn.1 ((h.parent_none hx).1 hn.2)]
  simp only [require, linked_eq h hx, or_true, if_true, bind, bind_some, hl, hr]
  rcases hlr with rfl | rfl
  · exact ht'
  · cases l.root <;> exact ht'

/-- A node with two children is first swapped with its successor, which has no
left child. -/
theorem remove_spec (cb : Callbacks K A) {T : CTree P} {m : Nat} (h : Rep t T)
    (hv : Valid T .black m) (hx : x ∈ T.inorder) (hfuel : T.inorder.length + 1 < fuel) :
    ∃ t' T', rbtree_remove cb fuel t x = some t' ∧ Unlinked cb t t' T T' x ∧ ∃ k, Valid T' .black k := by
  obtain ⟨n, rfl⟩ : ∃ n, fuel = n + 2 := ⟨fuel - 2, by omega⟩
  obtain ⟨C, c, l, r, rfl⟩ := exists_plug hx
  by_cases hlr : l = .nil ∨ r = .nil
  · exact remove_loop_single cb h hv hlr (by omega)
  obtain ⟨hlr1, hlr2⟩ := not_or.1 hlr
  obtain ⟨-, hl, hr, -, -, hrr⟩ := h.plug.2
  obtain ⟨pl, hpl⟩ := ne_none_iff_exists'.1 fun hn => hlr1 (root_eq_none.1 hn)
  obtain ⟨pr, hpr⟩ := ne_none_iff_exists'.1 fun hn => hlr2 (root_eq_none.1 hn)
  have hlen := (perm_inorder_plug C (.node c l x r)).length_eq
  simp only [inorder, length_append, length_cons] at hlen
  obtain ⟨C', c', y, b, hy, hplug, hbefore⟩ :=
    find_last_spec .left hrr hpr (n := n + 2) (by omega) (.step .right c x l C)
  have hplug' : C.plug (.node c l x r) = Ctx.plug C' (bin .left c' y .nil b) := hplug
  have hin : (C.plug (.node c l x r)).inorder = (C.before ++ l.inorder) ++ x :: y :: (b.inorder ++ C'.after) := by
    rw [hplug', inorder_plug, show C'.before = C.before ++ (l.inorder ++ [x]) from hbefore]
    simp [bin]
  have hyleft : (t.node y).children .left = none := (repT_bin.1 (hplug' ▸ h).plug.2).2.1
  have hxy : x ≠ y := by
    have hnd := h.nodup
    rw [hin] at hnd
    rintro rfl
    simp [nodup_append] at hnd
  obtain ⟨t1, T1, ht1, hs⟩ := swap_spec cb h hx (by rw [hin]; simp) hxy (Nat.lt_of_succ_lt hfuel)
  obtain ⟨C1, c1, l1, r1, rfl⟩ := exists_plug (hs.perm.mem_iff.2 hx)
  have hl1 : l1 = .nil := root_eq_none.1 (hs.rep.plug.2.2.1.symm.trans ((hs.childless .left).1 hyleft))
  obtain ⟨t', T', ht', hu, hv'⟩ := remove_loop_single cb (n := n) hs.rep (hs.valid _ _ hv) (.inl hl1)
    (hs.perm.length_eq ▸ Nat.lt_of_succ_lt hfuel)
  refine ⟨t', T', ?_, ⟨hu.rep, hu.key.trans hs.key, hu.self, fun q hq => ?_, ?_, fun hf => hu.fresh ?_⟩, hv'⟩
  · unfold rbtree_remove
    rw [rbtree_remove_loop, if_neg fun hn => hn.1 ((h.parent_none hx).1 hn.2)]
    simp only [require, linked_eq h hx, or_true, if_true, bind, bind_some, hl, hr, hpl, hpr, rbtree_find_min, hy,
      hyleft, ht1]
    exact ht'
  · rw [hu.out q fun hm => hq (hs.perm.mem_iff.1 hm), hs.out q hq]
  · have hin1 := hs.after _ _ hin
    have hin1' : (C1.plug (.node c1 l1 x r1)).inorder =
        (C.before ++ l.inorder ++ [y]) ++ x :: (b.inorder ++ C'.after) := by
      rw [hin1]
      simp
    rw [hu.inorder, hin1', erase_middle (hin1' ▸ hs.rep.nodup), hin, erase_middle (hin ▸ h.nodup)]
    simp
  · exact hs.fresh fun q hq _ _ => hf q hq

end Patchwork.RbTree
