import Mathlib.Data.List.Basic
import Mathlib.Data.List.Nodup
import Mathlib.Tactic.Common
/-!
# Red-black trees

Trees of coloured nodes, the contexts that remain when a subtree is taken out,
and the red-black invariant of both. Everything that has a mirror image is
stated for a direction: `bin d c p a b` is the node `p` with the child `a` on
side `d` and `b` on the other side, so that one lemma covers both.
-/

namespace Patchwork.Lib.RedBlack

open List

inductive Color where
  | red
  | black
deriving Repr, DecidableEq

inductive Dir where
  | left
  | right
deriving Repr, DecidableEq

namespace Dir

def opp : Dir → Dir
  | .left => .right
  | .right => .left

@[simp] theorem opp_opp (d : Dir) : d.opp.opp = d := by cases d <;> rfl

@[simp] theorem opp_ne (d : Dir) : d.opp ≠ d := by cases d <;> decide

@[simp] theorem ne_opp (d : Dir) : d ≠ d.opp := by cases d <;> decide

theorem eq_or_opp (d e : Dir) : e = d ∨ e = d.opp := by cases d <;> cases e <;> decide

end Dir

variable {P : Type}

inductive CTree (P : Type) where
  | nil
  | node (c : Color) (l : CTree P) (p : P) (r : CTree P)

/-- What is left of a tree when a subtree is taken out: the hole is the child
on side `d` of the node `p`, whose other child is `sib`. -/
inductive Ctx (P : Type) where
  | top
  | step (d : Dir) (c : Color) (p : P) (sib : CTree P) (up : Ctx P)

variable {c : Color} {p q : P} {d : Dir} {a b t : CTree P}

namespace CTree

def root : CTree P → Option P
  | nil => none
  | node _ _ p _ => some p

/-- The node `p` with `a` on side `d` and `b` on the other. -/
def bin : Dir → Color → P → CTree P → CTree P → CTree P
  | .left, c, p, a, b => node c a p b
  | .right, c, p, a, b => node c b p a

def inorder : CTree P → List P
  | nil => []
  | node _ l p r => inorder l ++ p :: inorder r

attribute [simp] inorder

theorem mem_inorder_node {l r : CTree P} : q ∈ (node c l p r).inorder ↔ q ∈ l.inorder ∨ q = p ∨ q ∈ r.inorder := by
  simp

/-- The nodes, with the children's on the sides in the order of `bin`. -/
theorem perm_inorder_bin (d : Dir) (c : Color) (p : P) (a b : CTree P) :
    (bin d c p a b).inorder.Perm (p :: (a.inorder ++ b.inorder)) := by
  cases d with
  | left => exact perm_middle
  | right => exact perm_middle.trans (List.Perm.cons p perm_append_comm)

theorem mem_inorder_bin : q ∈ (bin d c p a b).inorder ↔ q = p ∨ q ∈ a.inorder ∨ q ∈ b.inorder := by
  rw [(perm_inorder_bin d c p a b).mem_iff]
  simp

@[simp] theorem root_bin (d : Dir) (c : Color) (p : P) (a b : CTree P) : (bin d c p a b).root = some p := by
  cases d <;> rfl

theorem bin_opp (d : Dir) (c : Color) (p : P) (a b : CTree P) : bin d.opp c p a b = bin d c p b a := by
  cases d <;> rfl

theorem node_eq_bin (d : Dir) (c : Color) (l : CTree P) (p : P) (r : CTree P) :
    ∃ a b, node c l p r = bin d c p a b := by
  cases d with
  | left => exact ⟨l, r, rfl⟩
  | right => exact ⟨r, l, rfl⟩

theorem inorder_rotate (d : Dir) (cn cr : Color) (n r : P) (a b e : CTree P) :
    (bin d cr r (bin d cn n a b) e).inorder = (bin d cn n a (bin d cr r b e)).inorder := by
  cases d <;> simp [bin]

theorem root_mem (h : t.root = some p) : p ∈ t.inorder := by
  cases t with
  | nil => cases h
  | node c l q r =>
    cases h
    simp

theorem root_eq_none : t.root = none ↔ t = nil := by
  cases t <;> simp [root]

theorem exists_of_root (h : t.root = some p) : ∃ c l r, t = node c l p r := by
  cases t with
  | nil => cases h
  | node c l q r =>
    cases h
    exact ⟨c, l, r, rfl⟩

/-- Paint the root black. -/
def blacken : CTree P → CTree P
  | nil => nil
  | node _ l p r => node .black l p r

theorem blacken_bin (d : Dir) (c : Color) (p : P) (a b : CTree P) : (bin d c p a b).blacken = bin d .black p a b := by
  cases d <;> rfl

end CTree

variable {C : Ctx P}

namespace Ctx

open CTree

def plug : Ctx P → CTree P → CTree P
  | top, t => t
  | step d c p sib up, t => up.plug (bin d c p t sib)

/-- The node the hole is a child of. -/
def parent : Ctx P → Option P
  | top => none
  | step _ _ p _ _ => some p

/-- The side of its parent the hole is on; `d` if it has none. -/
def side (d : Dir) : Ctx P → Dir
  | top => d
  | step e _ _ _ _ => e

/-- The nodes from the hole up to the root. -/
def path : Ctx P → List P
  | top => []
  | step _ _ p _ up => p :: up.path

/-- The nodes before the hole, in order. -/
def before : Ctx P → List P
  | top => []
  | step .left _ _ _ up => up.before
  | step .right _ p sib up => up.before ++ (sib.inorder ++ [p])

/-- The nodes after the hole, in order. -/
def after : Ctx P → List P
  | top => []
  | step .left _ p sib up => (p :: sib.inorder) ++ up.after
  | step .right _ _ _ up => up.after

/-- The nodes outside the hole on side `d`. -/
def beyond : Dir → Ctx P → List P
  | .left, C => C.before
  | .right, C => C.after

@[simp] theorem beyond_step (d : Dir) (c : Color) (p : P) (sib : CTree P) (up : Ctx P) :
    beyond d (step d c p sib up) = up.beyond d := by
  cases d <;> rfl

@[simp] theorem inorder_plug (C : Ctx P) (t : CTree P) : (C.plug t).inorder = C.before ++ t.inorder ++ C.after := by
  induction C generalizing t with
  | top => simp [plug, before, after]
  | step d c p sib up ih =>
    rw [plug, ih]
    cases d <;> simp [bin, before, after]

theorem plug_step_opp (d : Dir) (c : Color) (p : P) (a b : CTree P) (up : Ctx P) :
    plug (step d.opp c p a up) b = up.plug (bin d c p a b) := by
  rw [plug, bin_opp]

/-- The nodes of a context. -/
def nodes (C : Ctx P) : List P := C.before ++ C.after

theorem perm_inorder_plug (C : Ctx P) (t : CTree P) : (C.plug t).inorder.Perm (t.inorder ++ C.nodes) := by
  rw [inorder_plug, nodes, append_assoc]
  exact perm_append_comm_assoc _ _ _

theorem perm_nodes_step (d : Dir) (c : Color) (p : P) (sib : CTree P) (up : Ctx P) :
    (step d c p sib up).nodes.Perm (p :: (sib.inorder ++ up.nodes)) := by
  cases d with
  | left =>
    show (up.before ++ (p :: sib.inorder ++ up.after)).Perm _
    exact (perm_append_comm_assoc _ _ _)
  | right =>
    show (up.before ++ (sib.inorder ++ [p]) ++ up.after).Perm _
    rw [append_assoc]
    refine (perm_append_comm_assoc _ _ _).trans ?_
    rw [append_assoc]
    exact perm_middle

theorem mem_nodes_step {sib : CTree P} {up : Ctx P} :
    q ∈ (step d c p sib up).nodes ↔ q = p ∨ q ∈ sib.inorder ∨ q ∈ up.nodes := by
  rw [(perm_nodes_step d c p sib up).mem_iff]
  simp

theorem path_subset (C : Ctx P) : C.path ⊆ C.nodes := by
  induction C with
  | top => exact nil_subset _
  | step d c p sib up ih =>
    intro q hq
    rw [mem_nodes_step]
    rcases mem_cons.1 hq with rfl | hq
    · exact .inl rfl
    · exact .inr (.inr (ih hq))

theorem parent_mem_path (h : C.parent = some p) : p ∈ C.path := by
  cases C with
  | top => cases h
  | step d c q sib up =>
    cases h
    exact mem_cons_self

theorem parent_mem (h : C.parent = some p) : p ∈ C.nodes := path_subset C (parent_mem_path h)

theorem length_path_le (C : Ctx P) : C.path.length ≤ C.nodes.length := by
  induction C with
  | top => exact Nat.zero_le _
  | step d c p sib up ih =>
    rw [(perm_nodes_step d c p sib up).length_eq]
    simp only [path, length_cons, length_append]
    omega

end Ctx

open CTree Ctx

theorem exists_plug (h : p ∈ t.inorder) : ∃ C c l r, t = Ctx.plug C (node c l p r) := by
  suffices hc : ∀ C : Ctx P, ∃ D c l r, C.plug t = Ctx.plug D (node c l p r) from hc .top
  induction t with
  | nil => cases h
  | node c l q r ihl ihr =>
    intro C
    simp only [inorder, mem_append, mem_cons] at h
    rcases h with h | rfl | h
    · exact ihl h (.step .left c q r C)
    · exact ⟨C, c, l, r, rfl⟩
    · exact ihr h (.step .right c q l C)

/-! ## The red-black invariant -/

/-- A tree with a root of colour `c` (`nil` is black) in which no red node has a
red child and every path to a `nil` has `n` black nodes. -/
inductive Valid : CTree P → Color → Nat → Prop
  | nil : Valid .nil .black 0
  | red {l r : CTree P} {p : P} {n : Nat} : Valid l .black n → Valid r .black n → Valid (.node .red l p r) .red n
  | black {l r : CTree P} {p : P} {n : Nat} {c₁ c₂ : Color} :
    Valid l c₁ n → Valid r c₂ n → Valid (.node .black l p r) .black (n + 1)

/-- A context whose hole takes a tree of black height `n`; a red one if `b`. -/
inductive CtxValid : Ctx P → Bool → Nat → Prop
  | top {n : Nat} : CtxValid .top true n
  | red {d : Dir} {p : P} {sib : CTree P} {up : Ctx P} {n : Nat} :
    CtxValid up true n → Valid sib .black n → CtxValid (.step d .red p sib up) false n
  | black {d : Dir} {p : P} {sib : CTree P} {up : Ctx P} {n : Nat} {b : Bool} {c : Color} :
    CtxValid up b (n + 1) → Valid sib c n → CtxValid (.step d .black p sib up) true n

variable {n m : Nat}

theorem valid_bin_red : Valid (bin d .red p a b) c n ↔ c = .red ∧ Valid a .black n ∧ Valid b .black n := by
  constructor
  · intro h
    cases d <;> cases h with | red hl hr => first | exact ⟨rfl, hl, hr⟩ | exact ⟨rfl, hr, hl⟩
  · rintro ⟨rfl, ha, hb⟩
    cases d with
    | left => exact .red ha hb
    | right => exact .red hb ha

theorem valid_bin_black :
    Valid (bin d .black p a b) c m ↔
      c = .black ∧ ∃ n c₁ c₂, m = n + 1 ∧ Valid a c₁ n ∧ Valid b c₂ n := by
  constructor
  · intro h
    cases d <;> cases h with
      | black hl hr => first | exact ⟨rfl, _, _, _, rfl, hl, hr⟩ | exact ⟨rfl, _, _, _, rfl, hr, hl⟩
  · rintro ⟨rfl, n, c₁, c₂, rfl, ha, hb⟩
    cases d with
    | left => exact .black ha hb
    | right => exact .black hb ha

theorem Valid.binBlack {c₁ c₂ : Color} (d : Dir) (p : P) (ha : Valid a c₁ n)
    (hb : Valid b c₂ n) : Valid (bin d .black p a b) .black (n + 1) :=
  valid_bin_black.2 ⟨rfl, n, c₁, c₂, rfl, ha, hb⟩

theorem Valid.binRed (d : Dir) (p : P) (ha : Valid a .black n) (hb : Valid b .black n) :
    Valid (bin d .red p a b) .red n :=
  valid_bin_red.2 ⟨rfl, ha, hb⟩

theorem Valid.plug {b : Bool} (hC : CtxValid C b n) (ht : Valid t c n)
    (hcol : c = .red → b = true) : ∃ c' m, Valid (C.plug t) c' m := by
  induction hC generalizing t c with
  | top => exact ⟨c, _, ht⟩
  | @red d p sib up n hup hsib ih =>
    obtain rfl : c = .black := by
      cases c with
      | red => cases hcol rfl
      | black => rfl
    exact ih (ht.binRed d p hsib) fun _ => rfl
  | @black d p sib up n b c' hup hsib ih => exact ih (ht.binBlack d p hsib) (fun h => by cases h)

theorem Valid.unplug (h : Valid (C.plug t) c m) :
    ∃ b n c', CtxValid C b n ∧ Valid t c' n ∧ (c' = .red → b = true) := by
  induction C generalizing t with
  | top => exact ⟨true, m, c, .top, h, fun _ => rfl⟩
  | step d col p sib up ih =>
    obtain ⟨b, n, c', hup, hbin, hcol⟩ := ih h
    cases col with
    | red =>
      obtain ⟨rfl, ht, hsib⟩ := valid_bin_red.1 hbin
      exact ⟨false, n, .black, .red (hcol rfl ▸ hup) hsib, ht, fun h => by cases h⟩
    | black =>
      obtain ⟨rfl, n, c₁, c₂, rfl, ht, hsib⟩ := valid_bin_black.1 hbin
      exact ⟨true, n, c₁, .black hup hsib, ht, fun _ => rfl⟩

/-- A subtree can be exchanged for one of the same height that is not red where
the old one is black. -/
theorem Valid.replace {t' : CTree P}
    (ht : ∀ c n, Valid t c n → ∃ c', Valid t' c' n ∧ (c' = .red → c = .red)) (h : Valid (C.plug t) .black m) :
    Valid (C.plug t') .black m := by
  induction C generalizing t t' with
  | top =>
    obtain ⟨c', hv, hc⟩ := ht _ _ h
    cases c' with
    | red => cases hc rfl
    | black => exact hv
  | step d col p sib up ih =>
    refine ih (fun c n hv => ?_) h
    cases col with
    | red =>
      obtain ⟨rfl, hvt, hsib⟩ := valid_bin_red.1 hv
      obtain ⟨c', hv', hc⟩ := ht _ _ hvt
      cases c' with
      | red => cases hc rfl
      | black => exact ⟨.red, hv'.binRed d p hsib, id⟩
    | black =>
      obtain ⟨rfl, k, c₁, c₂, rfl, hvt, hsib⟩ := valid_bin_black.1 hv
      obtain ⟨c', hv', -⟩ := ht _ _ hvt
      exact ⟨.black, hv'.binBlack d p hsib, id⟩

theorem Valid.blacken (h : Valid t c n) : ∃ m, Valid t.blacken .black m := by
  cases h with
  | nil => exact ⟨0, .nil⟩
  | red hl hr => exact ⟨_, .black hl hr⟩
  | black hl hr => exact ⟨_, .black hl hr⟩

theorem Valid.plug_blacken {b : Bool} (hC : CtxValid C b n)
    (ht : Valid t c n) (hcol : c = .red → b = true) : ∃ m, Valid (C.plug t).blacken .black m := by
  obtain ⟨c', m, hv⟩ := Valid.plug hC ht hcol
  exact hv.blacken

theorem Valid.eq_nil (h : Valid t .black 0) : t = .nil := by
  cases h
  rfl

/-- A black tree of positive height has a root, seen from side `d`. -/
theorem Valid.exists_bin (h : Valid t .black (n + 1)) (d : Dir) :
    ∃ p a b c₁ c₂, t = bin d .black p a b ∧ Valid a c₁ n ∧ Valid b c₂ n := by
  cases h with
  | @black l r p _ c₁ c₂ hl hr =>
    cases d with
    | left => exact ⟨p, l, r, c₁, c₂, rfl, hl, hr⟩
    | right => exact ⟨p, r, l, c₂, c₁, rfl, hr, hl⟩

theorem Valid.exists_bin_red (h : Valid t .red n) (d : Dir) :
    ∃ p a b, t = bin d .red p a b ∧ Valid a .black n ∧ Valid b .black n := by
  cases h with
  | @red l r p _ hl hr =>
    cases d with
    | left => exact ⟨p, l, r, rfl, hl, hr⟩
    | right => exact ⟨p, r, l, rfl, hr, hl⟩

/-! ## Renamed nodes -/

namespace CTree

/-- The tree with `f` applied to the nodes and the children of the nodes in `x`
exchanged; the colours stay where they are. -/
def relabel (f : P → P) (x : P → Bool) : CTree P → CTree P
  | nil => nil
  | node c l p r => bin (if x p then .right else .left) c (f p) (relabel f x l) (relabel f x r)

theorem root_relabel (f : P → P) (x : P → Bool) (t : CTree P) : (t.relabel f x).root = t.root.map f := by
  cases t with
  | nil => rfl
  | node c l p r => rw [relabel, root_bin]; rfl

theorem perm_inorder_relabel (f : P → P) (x : P → Bool) (t : CTree P) :
    (t.relabel f x).inorder.Perm (t.inorder.map f) := by
  induction t with
  | nil => exact .refl _
  | node c l p r ihl ihr =>
    rw [relabel, inorder, map_append, map_cons]
    exact ((perm_inorder_bin _ _ _ _ _).trans ((ihl.append ihr).cons _)).trans perm_middle.symm

theorem inorder_relabel (f : P → P) {x : P → Bool} (hx : ∀ p ∈ t.inorder, x p = false) :
    (t.relabel f x).inorder = t.inorder.map f := by
  induction t with
  | nil => rfl
  | node c l p r ihl ihr =>
    simp only [inorder, mem_append, mem_cons] at hx
    simp [relabel, hx p (by simp), bin, ihl fun q hq => hx q (.inl hq), ihr fun q hq => hx q (.inr (.inr hq))]

theorem relabel_congr (f : P → P) {x y : P → Bool} (h : ∀ p ∈ t.inorder, x p = y p) :
    t.relabel f x = t.relabel f y := by
  induction t with
  | nil => rfl
  | node c l p r ihl ihr =>
    simp only [inorder, mem_append, mem_cons] at h
    rw [relabel, relabel, h p (by simp), ihl fun q hq => h q (.inl hq), ihr fun q hq => h q (.inr (.inr hq))]

end CTree

theorem Valid.relabel (h : Valid t c n) (f : P → P) (x : P → Bool) : Valid (t.relabel f x) c n := by
  induction h with
  | nil => exact .nil
  | red _ _ ihl ihr => exact ihl.binRed _ _ ihr
  | black _ _ ihl ihr => exact ihl.binBlack _ _ ihr

end Patchwork.Lib.RedBlack
