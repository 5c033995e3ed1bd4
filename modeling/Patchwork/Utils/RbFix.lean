import Mathlib.Data.List.Induction
import Patchwork.Utils.RbSwap
/-!
# Neighbours, and restoring the order

`rbtree_next` and `rbtree_prev` find the neighbours in the order.
`rbtree_fix` moves a node in one direction, by swaps with its neighbours, until
it is between its neighbours: a node that has moved up past a smaller one is
never moved back. It ends whatever `compare` is.
-/

namespace Patchwork.RbTree

open List hiding after
open Option Lib.RedBlack CTree Ctx

variable {P K A : Type}

/-! ## Neighbours -/

variable {t : rbtree_t P K A} {T : CTree P} {n fuel : Nat} {x : P} {B L : List P} {cb : Callbacks K A}

theorem find_last_spec (d : Dir) {par : Option P} {p : P}
    (h : RepT t.node par T) (hp : T.root = some p) (hn : T.inorder.length ≤ n) (C₀ : Ctx P) :
    ∃ C c x b, rbtree_find_last t d n p = some x ∧ C₀.plug T = Ctx.plug C (bin d c x .nil b) ∧
      C.beyond d = C₀.beyond d := by
  induction n generalizing T p par C₀ with
  | zero => exact absurd (length_pos_of_mem (root_mem hp)) (by omega)
  | succ n ih =>
    obtain ⟨c, l, r, rfl⟩ := exists_of_root hp
    obtain ⟨a, b, hab⟩ := node_eq_bin d c l p r
    rw [hab] at h hn ⊢
    obtain ⟨-, h2, -, -, ha, -⟩ := repT_bin.1 h
    rw [rbtree_find_last, h2]
    cases hroot : a.root with
    | none =>
      obtain rfl := root_eq_none.1 hroot
      exact ⟨C₀, c, p, b, rfl, rfl, rfl⟩
    | some q =>
      rw [(perm_inorder_bin d c p a b).length_eq, length_cons, length_append] at hn
      obtain ⟨C, c', x, b', hx, hplug, hbeyond⟩ := ih ha hroot (by omega) (.step d c p b C₀)
      exact ⟨C, c', x, b', hx, hplug, hbeyond.trans (beyond_step d c p b C₀)⟩

variable [DecidableEq P]

/-- The first node that is reached from the other side. -/
theorem climb_spec (d : Dir) {C : Ctx P} {q : P} (h : RepC t.node t.root C (some q))
    (hnd : (q :: C.nodes).Nodup) (hn : C.path.length < n) :
    rbtree_climb t d n q C.parent = some (match d with
      | .right => C.after.head?
      | .left => C.before.getLast?) := by
  induction C generalizing q n with
  | top =>
    obtain ⟨n, rfl⟩ : ∃ k, n = k + 1 := ⟨n - 1, by omega⟩
    cases d <;> rfl
  | step e c p sib up ih =>
    obtain ⟨n, rfl⟩ : ∃ k, n = k + 1 := ⟨n - 1, by omega⟩
    obtain ⟨h1, h2, h3, -, -, h6⟩ := h
    obtain ⟨hq, hndC⟩ := nodup_cons.1 hnd
    have hsib : sib.root ≠ some q := fun hr => hq (mem_nodes_step.2 (.inr (.inl (root_mem hr))))
    have hup : (p :: up.nodes).Nodup := by
      have := (perm_nodes_step e c p sib up).nodup_iff.1 hndC
      simp only [nodup_cons, nodup_append, mem_append, not_or] at this ⊢
      exact ⟨this.1.2, this.2.2.1⟩
    simp only [path, length_cons] at hn
    rw [parent, rbtree_climb]
    rcases d.eq_or_opp e with rfl | rfl
    · rw [if_pos h2, h1, ih h6 hup (by omega)]
      cases e <;> rfl
    · rw [Dir.opp_opp] at h3
      rw [if_neg (by rw [h3]; exact hsib)]
      cases d <;> simp [Dir.opp, after, before]

/-- The neighbours of a node in the order. -/
theorem neighbours_spec (h : Rep t T) (hin : T.inorder = B ++ x :: L) (hfuel : T.inorder.length < fuel) :
    rbtree_next fuel t x = some L.head? ∧ rbtree_prev fuel t x = some B.getLast? := by
  have hx : x ∈ T.inorder := by simp [hin]
  obtain ⟨C, c, l, r, rfl⟩ := exists_plug hx
  obtain ⟨hC, hpar, hl, hr, -, hrl, hrr⟩ := h.plug
  have hnd : (x :: C.nodes).Nodup := nodup_cons.2 ⟨disjoint_of_nodup h.nodup (root_mem rfl),
    (nodup_append.1 ((perm_inorder_plug C _).nodup_iff.1 h.nodup)).2.1⟩
  have hlen := (perm_inorder_plug C (.node c l x r)).length_eq
  simp only [inorder, length_append, length_cons] at hlen
  have hpath := length_path_le C
  -- The list splits at the node in one way only.
  have hsplit : C.before ++ l.inorder = B ∧ r.inorder ++ C.after = L := by
    have he : (C.before ++ l.inorder) ++ x :: (r.inorder ++ C.after) = B ++ x :: L := by
      rw [← hin, inorder_plug]
      simp
    have hn := h.nodup
    rw [hin, ← he] at hn
    simp only [nodup_append, nodup_cons] at hn
    obtain ⟨h1, -, h2⟩ := (append_cons_inj_of_notMem
      (fun hm => hn.2.2 x hm x mem_cons_self rfl) hn.2.1.1).1 he
    exact ⟨h1, h2⟩
  obtain ⟨rfl, rfl⟩ := hsplit
  constructor
  · unfold rbtree_next
    rw [hr, hpar]
    cases hroot : r.root with
    | none =>
      obtain rfl := root_eq_none.1 hroot
      exact climb_spec .right hC hnd (by omega)
    | some p =>
      obtain ⟨C', c', y, b, hy, hplug, hbeyond⟩ := find_last_spec .left hrr hroot (n := fuel) (by omega) .top
      have hrin : r.inorder = y :: (b.inorder ++ C'.after) := by
        have := inorder_plug C' (bin .left c' y .nil b)
        rw [← hplug, show C'.before = [] from hbeyond] at this
        exact this
      rw [hrin]
      exact congrArg (Option.map some) hy
  · unfold rbtree_prev
    rw [hl, hpar]
    cases hroot : l.root with
    | none =>
      obtain rfl := root_eq_none.1 hroot
      rw [show C.before ++ inorder .nil = C.before from append_nil _]
      exact climb_spec .left hC hnd (by omega)
    | some p =>
      obtain ⟨C', c', y, b, hy, hplug, hbeyond⟩ := find_last_spec .right hrl hroot (n := fuel) (by omega) .top
      have hlin : l.inorder = C'.before ++ b.inorder ++ [y] := by
        have := inorder_plug C' (bin .right c' y .nil b)
        rw [← hplug, show C'.after = [] from hbeyond] at this
        simpa [plug, bin] using this
      rw [show (C.before ++ l.inorder).getLast? = some y by simp [hlin]]
      exact congrArg (Option.map some) hy

/-! ## The loop of `rbtree_fix` -/

/-- What the loop does: the node ends between its neighbours, and the other
nodes keep their order. Only the value of the node itself may stay stale. -/
structure Settled (cb : Callbacks K A) (t t' : rbtree_t P K A) (T T' : CTree P) (x : P) : Prop where
  rep : Rep t' T'
  key : t'.key = t.key
  perm : T'.inorder.Perm T.inorder
  out : ∀ q, q ∉ T.inorder → t'.node q = t.node q
  valid : ∀ c n, Valid T c n → Valid T' c n
  fresh : (∀ q ∈ T.inorder, q ≠ x → Fresh cb t q) → ∀ q ∈ T'.inorder, q ≠ x → Fresh cb t' q
  rest : T'.inorder.erase x = T.inorder.erase x
  place : ∃ B L, T'.inorder = B ++ x :: L ∧ (∀ y ∈ L.head?, cb.compare (t.key x) (t.key y) ≤ 0) ∧
    ∀ z ∈ B.getLast?, 0 ≤ cb.compare (t.key x) (t.key z)

/-- One swap with a neighbour, and then the rest. -/
theorem Settled.of_swapped {t₁ t₂ t₃ : rbtree_t P K A} {T₁ T₂ T₃ : CTree P} {y : P}
    (hs : Swapped cb t₁ t₂ T₁ T₂ x y) (h : Settled cb t₂ t₃ T₂ T₃ x) (hrest : T₂.inorder.erase x = T₁.inorder.erase x) :
    Settled cb t₁ t₃ T₁ T₃ x where
  rep := h.rep
  key := h.key.trans hs.key
  perm := h.perm.trans hs.perm
  out q hq := (h.out q fun hm => hq (hs.perm.mem_iff.1 hm)).trans (hs.out q hq)
  valid c n hv := h.valid c n (hs.valid c n hv)
  fresh hf := h.fresh fun q hq _ => hs.fresh (fun q hq hx _ => hf q hq hx) q hq
  rest := h.rest.trans hrest
  place := hs.key ▸ h.place

theorem erase_middle (h : (B ++ x :: L).Nodup) : (B ++ x :: L).erase x = B ++ L := by
  have hx : x ∉ B := fun hm => (nodup_append.1 h).2.2 x hm x mem_cons_self rfl
  rw [erase_append_right _ hx, erase_cons_head]

section
variable (cb) (h : Rep t T) (hfuel : T.inorder.length < fuel)
include h hfuel

/-- One round: the node is between its neighbours and the loop ends, or the node is
moved past the next one or in front of the previous one. -/
theorem fix_loop_round (hin : T.inorder = B ++ x :: L) (n : Nat) :
    ((∀ y ∈ L.head?, cb.compare (t.key x) (t.key y) ≤ 0) ∧ (∀ z ∈ B.getLast?, 0 ≤ cb.compare (t.key x) (t.key z)) ∧
        rbtree_fix_loop cb fuel (n + 1) t x = some t) ∨
      ∃ t₁ T₁ B₁ L₁ y, rbtree_fix_loop cb fuel (n + 1) t x = rbtree_fix_loop cb fuel n t₁ x ∧
        Swapped cb t t₁ T T₁ x y ∧ T₁.inorder = B₁ ++ x :: L₁ ∧ B₁ ++ L₁ = B ++ L ∧
        (B₁ = B ++ [y] ∧ L = y :: L₁ ∧ 0 < cb.compare (t.key x) (t.key y) ∨
          B = B₁ ++ [y] ∧ L₁ = y :: L ∧ cb.compare (t.key x) (t.key y) < 0 ∧
            ∀ y ∈ L.head?, cb.compare (t.key x) (t.key y) ≤ 0) := by
  obtain ⟨h1, h2⟩ := neighbours_spec h hin hfuel
  have hswap : ∀ y, y ∈ B ++ L → ∃ t₁ T₁, rbtree_swap cb fuel t x y = some t₁ ∧ Swapped cb t t₁ T T₁ x y := by
    intro y hy
    have hnd := nodup_middle.1 (hin ▸ h.nodup)
    refine swap_spec cb h (by simp [hin]) ?_ (fun he => (nodup_cons.1 hnd).1 (he ▸ hy)) hfuel
    rw [hin]
    exact perm_middle.mem_iff.2 (mem_cons_of_mem _ hy)
  by_cases hnext : ∀ y ∈ L.head?, cb.compare (t.key x) (t.key y) ≤ 0
  · have hn : (L.head?.filter fun q => cb.compare (t.key x) (t.key q) > 0) = none := by
      rw [filter_eq_none_iff]
      intro y hy
      simpa using hnext y hy
    by_cases hprev : ∀ z ∈ B.getLast?, 0 ≤ cb.compare (t.key x) (t.key z)
    · have hp : (B.getLast?.filter fun q => cb.compare (t.key x) (t.key q) < 0) = none := by
        rw [filter_eq_none_iff]
        intro z hz
        simpa using hprev z hz
      refine .inl ⟨hnext, hprev, ?_⟩
      simp only [rbtree_fix_loop, h1, bind, bind_some, hn, h2, hp]
    · cases B using List.reverseRecOn with
      | nil => simp at hprev
      | append_singleton B z =>
        simp only [List.getLast?_concat, mem_def, some.injEq, forall_eq', Int.not_le] at hprev
        obtain ⟨t₁, T₁, ht₁, hs⟩ := hswap z (by simp)
        refine .inr ⟨t₁, T₁, B, z :: L, z, ?_, hs, hs.before B L (by simp [hin]), by simp, .inr ⟨rfl, rfl, hprev, hnext⟩⟩
        simp only [rbtree_fix_loop, h1, bind, bind_some, hn, h2, List.getLast?_concat, filter_some, hprev,
          decide_true, if_true, ht₁]
  · cases L with
    | nil => simp at hnext
    | cons y L =>
      simp only [List.head?_cons, mem_def, some.injEq, forall_eq', Int.not_le] at hnext
      obtain ⟨t₁, T₁, ht₁, hs⟩ := hswap y (by simp)
      refine .inr ⟨t₁, T₁, B ++ [y], L, y, ?_, hs, by simp [hs.after B L hin], by simp, .inl ⟨rfl, rfl, hnext⟩⟩
      simp only [rbtree_fix_loop, h1, List.head?_cons, bind, bind_some, filter_some, gt_iff_lt, hnext,
        decide_true, if_true, ht₁]

/-- The node only moves up, and what it has passed is smaller, or it only moves down,
and what it has passed is greater. -/
theorem fix_loop_settles (hin : T.inorder = B ++ x :: L)
    (hdir : ((∀ z ∈ B.getLast?, 0 ≤ cb.compare (t.key x) (t.key z)) ∨
        ¬ ∀ y ∈ L.head?, cb.compare (t.key x) (t.key y) ≤ 0) ∧ L.length < n ∨
      (∀ y ∈ L.head?, cb.compare (t.key x) (t.key y) ≤ 0) ∧ B.length < n) :
    ∃ t' T', rbtree_fix_loop cb fuel n t x = some t' ∧ Settled cb t t' T T' x := by
  induction n generalizing t T B L with
  | zero => omega
  | succ n ih =>
    rcases fix_loop_round cb h hfuel hin n with ⟨hnext, hprev, hdone⟩ | ⟨t₁, T₁, B₁, L₁, y, heq, hs, hin₁, hrest, hmoved⟩
    · exact ⟨t, T, hdone, h, rfl, .refl _, fun _ _ => rfl, fun _ _ hv => hv, fun hf => hf, rfl, B, L, hin, hnext, hprev⟩
    · have herase : T₁.inorder.erase x = T.inorder.erase x := by
        rw [hin₁, erase_middle (hin₁ ▸ hs.rep.nodup), hin, erase_middle (hin ▸ h.nodup), hrest]
      obtain ⟨t', T', ht', hset⟩ := ih hs.rep (hs.perm.length_eq ▸ hfuel) hin₁ (by
        rw [hs.key]
        rcases hmoved with ⟨rfl, rfl, hgt⟩ | ⟨rfl, rfl, hlt, hnext⟩
        · left
          simp only [length_cons, List.head?_cons, mem_def, some.injEq, forall_eq'] at hdir
          refine ⟨.inl ?_, by omega⟩
          simp only [List.getLast?_concat, mem_def, some.injEq, forall_eq']
          omega
        · right
          simp only [length_append, length_singleton, List.getLast?_concat, mem_def, some.injEq,
            forall_eq'] at hdir hnext
          refine ⟨?_, by rcases hdir with ⟨hd | hd, -⟩ | hd <;> [omega; exact absurd hnext hd; omega]⟩
          simp only [List.head?_cons, mem_def, some.injEq, forall_eq']
          omega)
      exact ⟨t', T', heq.trans ht', Settled.of_swapped hs hset herase⟩

theorem fix_loop_spec (hx : x ∈ T.inorder) (hn : T.inorder.length < n) :
    ∃ t' T', rbtree_fix_loop cb fuel n t x = some t' ∧ Settled cb t t' T T' x := by
  obtain ⟨B, L, hin⟩ := append_of_mem hx
  have hlen := congrArg List.length hin
  simp only [length_append, length_cons] at hlen
  by_cases hnext : ∀ y ∈ L.head?, cb.compare (t.key x) (t.key y) ≤ 0
  · exact fix_loop_settles cb h hfuel hin (.inr ⟨hnext, by omega⟩)
  · exact fix_loop_settles cb h hfuel hin (.inl ⟨.inr hnext, by omega⟩)

/-! ## `rbtree_fix` -/

theorem fix_spec (hx : x ∈ T.inorder) :
    ∃ t' T', rbtree_fix cb fuel t x = some t' ∧ Settled cb t t' T T' x ∧
      ((∀ q ∈ T.inorder, q ≠ x → Fresh cb t q) → ∀ q ∈ T'.inorder, Fresh cb t' q) := by
  obtain ⟨t₁, T', ht₁, hs⟩ := fix_loop_spec cb h hfuel hx hfuel
  obtain ⟨C, c, l, r, hC⟩ := exists_plug (hs.perm.mem_iff.2 hx)
  obtain ⟨t', ht', hw⟩ := update_to_root_spec cb (hC ▸ hs.rep) rfl (by rw [← hC, hs.perm.length_eq]; exact hfuel)
  rw [← hC] at hw
  have hset : Settled cb t t' T T' x :=
    { hs with
      rep := hw.rep
      key := hw.key.trans hs.key
      out := fun q hq => by rw [hw.node, hs.out q hq]
      fresh := fun hf q hq hqx => hw.fresh q hq (.inl (hs.fresh hf q hq hqx)) }
  refine ⟨t', T', ?_, hset, fun hf q hq => hw.fresh q hq ?_⟩
  · simp only [rbtree_fix, ht₁, bind, bind_some, ht']
  · rcases eq_or_ne q x with rfl | hqx
    · exact .inr mem_cons_self
    · exact .inl (hs.fresh hf q hq hqx)

end

omit [DecidableEq P] in
/-- A node between its neighbours is in order if the others are. -/
theorem sorted_of_between (hcmp : IsCompare cb.compare) {key : P → K}
    (hs : Sorted cb key (B ++ L)) (hnext : ∀ y ∈ L.head?, cb.compare (key x) (key y) ≤ 0)
    (hprev : ∀ z ∈ B.getLast?, 0 ≤ cb.compare (key x) (key z)) : Sorted cb key (B ++ x :: L) := by
  obtain ⟨hB, hL, hBL⟩ := pairwise_append.1 hs
  have hxL : ∀ y ∈ L, cb.compare (key x) (key y) ≤ 0 := by
    cases L with
    | nil => simp
    | cons y L =>
      have hxy : cb.compare (key x) (key y) ≤ 0 := hnext y rfl
      intro w hw
      rcases mem_cons.1 hw with rfl | hw
      · exact hxy
      · exact hcmp.trans _ _ _ hxy ((pairwise_cons.1 hL).1 w hw)
  have hBx : ∀ z ∈ B, cb.compare (key z) (key x) ≤ 0 := by
    cases B using List.reverseRecOn with
    | nil => simp
    | append_singleton B z =>
      have hzx : cb.compare (key z) (key x) ≤ 0 := by
        have := hprev z (by simp)
        by_contra hgt
        have := (hcmp.flip (key x) (key z)).2 (by omega)
        omega
      intro w hw
      rcases mem_append.1 hw with hw | hw
      · exact hcmp.trans _ _ _ ((pairwise_append.1 hB).2.2 w hw z (by simp)) hzx
      · rw [mem_singleton.1 hw]
        exact hzx
  refine pairwise_append.2 ⟨hB, pairwise_cons.2 ⟨hxL, hL⟩, fun z hz y hy => ?_⟩
  rcases mem_cons.1 hy with rfl | hy
  · exact hBx z hz
  · exact hBL z hz y hy

/-- If the other nodes are in order, all are in order afterwards. -/
theorem Settled.sorted (hcmp : IsCompare cb.compare) {t' : rbtree_t P K A} {T' : CTree P}
    (h : Settled cb t t' T T' x) (hs : Sorted cb t.key (T.inorder.erase x)) : Sorted cb t.key T'.inorder := by
  obtain ⟨B, L, hin, hnext, hprev⟩ := h.place
  rw [← h.rest, hin, erase_middle (hin ▸ h.rep.nodup)] at hs
  rw [hin]
  exact sorted_of_between hcmp hs hnext hprev

end Patchwork.RbTree
