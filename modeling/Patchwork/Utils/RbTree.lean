import Patchwork.Lib.RedBlack
/-!
# Intrusive red-black trees (`kernel/utils/rbtree.c`)

Nodes live in memory, a map from addresses to the fields of `rbnode_t`, and a
tree is the address of its root. `compare` and `update` read the data the nodes
are embedded in: `key` is what `compare` looks at, `aug` the value that
`update` keeps, from the node's own key and the values of its children.

A function returns `none` where the code would fail an `assert` or dereference
`NULL`. The loops of the source have no bound; here each takes `fuel`, and
`none` also stands for a loop that has used it up.
-/

namespace Patchwork.RbTree

open Function Lib.RedBlack

variable {P K A : Type} [DecidableEq P]

@[ext]
structure rbnode_t (P : Type) where
  parent : Option P := none
  children : Dir → Option P := fun _ => none
  color : Color := .red

/-- `rbnode_compare_t` and `rbnode_update_t`; `update` may be `NULL`. -/
structure Callbacks (K A : Type) where
  compare : K → K → Int
  update : Option (K → Option A → Option A → A)

structure rbtree_t (P K A : Type) where
  root : Option P
  node : P → rbnode_t P
  key : P → K
  aug : P → A

/-- A pointer that is not `NULL`, or a condition that an `assert` checks. -/
def require (b : Prop) [Decidable b] : Option Unit := if b then some () else none

/-! ## Memory -/

namespace rbtree_t

def setParent (t : rbtree_t P K A) (p : P) (v : Option P) : rbtree_t P K A :=
  { t with node := update t.node p { t.node p with parent := v } }

def setChild (t : rbtree_t P K A) (p : P) (d : Dir) (v : Option P) : rbtree_t P K A :=
  { t with node := update t.node p { t.node p with children := update (t.node p).children d v } }

def setColor (t : rbtree_t P K A) (p : P) (c : Color) : rbtree_t P K A :=
  { t with node := update t.node p { t.node p with color := c } }

/-- `if (p != NULL) p->parent = v`. -/
def setParentOf (t : rbtree_t P K A) (p : Option P) (v : Option P) : rbtree_t P K A :=
  match p with
  | none => t
  | some p => t.setParent p v

/-- Put `new` where `parent` points to `old`: its child on side `d` if that is
`old`, else the other one; `tree->root` if `parent` is `NULL`. -/
def setLink (t : rbtree_t P K A) (parent : Option P) (d : Dir) (old : P) (new : Option P) : rbtree_t P K A :=
  match parent with
  | none => { t with root := new }
  | some p =>
    if (t.node p).children d = some old then t.setChild p d new else t.setChild p d.opp new

/-- `p == NULL || p->color == RBNODE_BLACK`. -/
def isBlack (t : rbtree_t P K A) (p : Option P) : Bool :=
  match p with
  | none => true
  | some p => (t.node p).color = .black

/-- The node is a child of `p`. -/
def hasChild (t : rbtree_t P K A) (p node : P) : Bool :=
  (t.node p).children .left = some node ∨ (t.node p).children .right = some node

/-- `if (tree->root != NULL) tree->root->color = RBNODE_BLACK`. -/
def blackenRoot (t : rbtree_t P K A) : rbtree_t P K A :=
  match t.root with
  | none => t
  | some r => t.setColor r .black

end rbtree_t

/-- `RBNODE_FROM_PARENT`, for a node whose parent is `parent`. -/
def RBNODE_FROM_PARENT (t : rbtree_t P K A) (parent node : P) : Dir :=
  if (t.node parent).children .right = some node then .right else .left

/-! ## Updates of the augmented values -/

def rbtree_update (f : K → Option A → Option A → A) (t : rbtree_t P K A) (p : P) : rbtree_t P K A :=
  let value := f (t.key p) (((t.node p).children .left).map t.aug) (((t.node p).children .right).map t.aug)
  { t with aug := update t.aug p value }

/-- The loop of `rbtree_update_to_root`. -/
def rbtree_update_path (f : K → Option A → Option A → A) : Nat → rbtree_t P K A → Option P → Option (rbtree_t P K A)
  | 0, _, _ => none
  | _ + 1, t, none => some t
  | fuel + 1, t, some p => rbtree_update_path f fuel (rbtree_update f t p) (t.node p).parent

variable (cb : Callbacks K A) (fuel : Nat)

def rbtree_update_to_root (t : rbtree_t P K A) (node : Option P) : Option (rbtree_t P K A) :=
  match cb.update, node with
  | none, _ => some t
  | _, none => some t
  | some f, some p => rbtree_update_path f fuel t (some p)

/-! ## Insertion -/

def rbtree_rotate (t : rbtree_t P K A) (node : P) (direction : Dir) : Option (rbtree_t P K A) := do
  let opposite := direction.opp
  let parent := (t.node node).parent
  let newRoot ← (t.node node).children opposite
  let newChild := (t.node newRoot).children direction
  let t := t.setChild node opposite newChild
  let t := t.setParentOf newChild (some node)
  let t := t.setChild newRoot direction (some node)
  let t := t.setParent newRoot parent
  let t := t.setParent node (some newRoot)
  let t := t.setLink parent .right node (some newRoot)
  let t ← rbtree_update_to_root cb fuel t (some node)
  rbtree_update_to_root cb fuel t (some newRoot)

/-- The loop of `rbtree_insert_at`. -/
def rbtree_insert_fixup : Nat → rbtree_t P K A → P → P → Option (rbtree_t P K A)
  | 0, _, _, _ => none
  | n + 1, t, node, parent =>
    if (t.node parent).color = .black then some t
    else
      match (t.node parent).parent with
      | none => some (t.setColor parent .black)
      | some grandparent => do
        require (t.hasChild grandparent parent)
        let fromParent := RBNODE_FROM_PARENT t grandparent parent
        let uncle := (t.node grandparent).children fromParent.opp
        if t.isBlack uncle then
          if (t.node parent).children fromParent.opp = some node then
            let t ← rbtree_rotate cb fuel t parent fromParent
            let parent ← (t.node grandparent).children fromParent
            let t ← rbtree_rotate cb fuel t grandparent fromParent.opp
            return (t.setColor parent .black).setColor grandparent .red
          else
            let t ← rbtree_rotate cb fuel t grandparent fromParent.opp
            return (t.setColor parent .black).setColor grandparent .red
        else do
          let uncle ← uncle
          let t := ((t.setColor parent .black).setColor uncle .black).setColor grandparent .red
          match (t.node grandparent).parent with
          | none => some t
          | some parent => do
            require (t.hasChild parent grandparent)
            rbtree_insert_fixup n t grandparent parent

def rbtree_insert_at (t : rbtree_t P K A) (parent : Option P) (node : P) (direction : Dir) :
    Option (rbtree_t P K A) :=
  let t := (t.setColor node .red).setParent node parent
  match parent with
  | none => some { t with root := some node }
  | some parent => do
    require ((t.node parent).children direction = none)
    let t := t.setChild parent direction (some node)
    let t ← rbtree_update_to_root cb fuel t (some node)
    rbtree_insert_fixup cb fuel fuel t node parent

/-- The descent of `rbtree_insert`: the parent and the side of the new node. -/
def rbtree_insert_descend (t : rbtree_t P K A) (node : P) : Nat → Option P → Option P → Dir → Option (Option P × Dir)
  | 0, _, _, _ => none
  | _ + 1, none, parent, direction => some (parent, direction)
  | n + 1, some current, _, _ =>
    let direction := if cb.compare (t.key node) (t.key current) < 0 then .left else .right
    rbtree_insert_descend t node n ((t.node current).children direction) (some current) direction

def rbtree_insert (t : rbtree_t P K A) (node : P) : Option (rbtree_t P K A) := do
  require ((t.node node).parent = none)
  require ((t.node node).children .left = none)
  require ((t.node node).children .right = none)
  let (parent, direction) ← rbtree_insert_descend cb t node fuel t.root none .left
  let t ← rbtree_insert_at cb fuel t parent node direction
  return t.blackenRoot

/-! ## Neighbours -/

/-- The loop of `rbtree_find_min` and of `rbtree_find_max`: to the last node on
side `d`. -/
def rbtree_find_last (t : rbtree_t P K A) (d : Dir) : Nat → P → Option P
  | 0, _ => none
  | n + 1, current =>
    match (t.node current).children d with
    | none => some current
    | some child => rbtree_find_last t d n child

def rbtree_find_min (t : rbtree_t P K A) (node : P) : Option P := rbtree_find_last t .left fuel node

def rbtree_find_max (t : rbtree_t P K A) (node : P) : Option P := rbtree_find_last t .right fuel node

/-- The loop of `rbtree_next` and of `rbtree_prev`: up, as long as the node is
the child on side `d`. -/
def rbtree_climb (t : rbtree_t P K A) (d : Dir) : Nat → P → Option P → Option (Option P)
  | 0, _, _ => none
  | _ + 1, _, none => some none
  | n + 1, node, some parent =>
    if (t.node parent).children d = some node then rbtree_climb t d n parent (t.node parent).parent
    else some (some parent)

/-- The result is `some none` where the source returns `NULL`. -/
def rbtree_next (t : rbtree_t P K A) (node : P) : Option (Option P) :=
  match (t.node node).children .right with
  | some child => (rbtree_find_min fuel t child).map some
  | none => rbtree_climb t .right fuel node (t.node node).parent

def rbtree_prev (t : rbtree_t P K A) (node : P) : Option (Option P) :=
  match (t.node node).children .left with
  | some child => (rbtree_find_max fuel t child).map some
  | none => rbtree_climb t .left fuel node (t.node node).parent

/-! ## Swapping two nodes -/

/-- The pointers of `rbtree_swap` when `b` is a child of `a`. -/
def rbtree_swap_child (t : rbtree_t P K A) (a b : P) : rbtree_t P K A :=
  let aParent := (t.node a).parent
  let sideB := if (t.node a).children .right = some b then Dir.right else .left
  let otherChild := (t.node a).children sideB.opp
  let bLeft := (t.node b).children .left
  let bRight := (t.node b).children .right
  let t := t.setParent b aParent
  let t := t.setLink aParent .left a (some b)
  let t := t.setChild b sideB (some a)
  let t := t.setParent a (some b)
  let t := t.setChild b sideB.opp otherChild
  let t := t.setParentOf otherChild (some b)
  let t := t.setChild a .left bLeft
  let t := t.setParentOf bLeft (some a)
  let t := t.setChild a .right bRight
  t.setParentOf bRight (some a)

/-- The pointers of `rbtree_swap` when neither is a child of the other. -/
def rbtree_swap_apart (t : rbtree_t P K A) (a b : P) : rbtree_t P K A :=
  let aParent := (t.node a).parent
  let bParent := (t.node b).parent
  let aLeft := (t.node a).children .left
  let aRight := (t.node a).children .right
  let bLeft := (t.node b).children .left
  let bRight := (t.node b).children .right
  let t := t.setParent a bParent
  let t := t.setLink bParent .left b (some a)
  let t := t.setChild a .left bLeft
  let t := t.setParentOf bLeft (some a)
  let t := t.setChild a .right bRight
  let t := t.setParentOf bRight (some a)
  let t := t.setParent b aParent
  let t := t.setLink aParent .left a (some b)
  let t := t.setChild b .left aLeft
  let t := t.setParentOf aLeft (some b)
  let t := t.setChild b .right aRight
  t.setParentOf aRight (some b)

/-- `node->parent == NULL`, or the node is a child of its parent. -/
def rbtree_t.linked (t : rbtree_t P K A) (node : P) : Bool :=
  match (t.node node).parent with
  | none => true
  | some p => t.hasChild p node

def rbtree_swap (t : rbtree_t P K A) (a b : P) : Option (rbtree_t P K A) :=
  if a = b then some t
  else do
    require (t.linked a)
    require (t.linked b)
    let tempColor := (t.node a).color
    let t := (t.setColor a (t.node b).color).setColor b tempColor
    -- The source renames the two when `a` is the child.
    let (a, b) := if (t.node a).parent = some b then (b, a) else (a, b)
    let t := if (t.node b).parent = some a then rbtree_swap_child t a b else rbtree_swap_apart t a b
    let t ← rbtree_update_to_root cb fuel t (some a)
    rbtree_update_to_root cb fuel t (some b)

/-! ## Removal -/

/-- `node->children[d] == NULL || node->children[d]->parent != node`. -/
def rbtree_t.childGone (t : rbtree_t P K A) (node : P) (d : Dir) : Bool :=
  match (t.node node).children d with
  | none => true
  | some c => (t.node c).parent ≠ some node

def rbtree_remove_sanitize (t : rbtree_t P K A) (node : P) : Option (rbtree_t P K A) := do
  require ((t.node node).parent = none ∨ t.linked node = false)
  require (t.childGone node .left)
  require (t.childGone node .right)
  let t ← rbtree_update_to_root cb fuel t (t.node node).parent
  return { t with node := update t.node node {} }

/-- The loop of `rbtree_remove`: the child of `parent` on side `fromParent` has
one black node too few. -/
def rbtree_remove_fixup : Nat → rbtree_t P K A → P → Dir → Option (rbtree_t P K A)
  | 0, _, _, _ => none
  | n + 1, t, parent, fromParent => do
    let sibling ← (t.node parent).children fromParent.opp
    let (t, sibling) ←
      if (t.node sibling).color = .red then do
        require ((t.node parent).color = .black)
        let t ← rbtree_rotate cb fuel t parent fromParent
        let t := (t.setColor parent .red).setColor sibling .black
        let sibling ← (t.node parent).children fromParent.opp
        require ((t.node sibling).color = .black)
        pure (t, sibling)
      else pure (t, sibling)
    let distantNephew := (t.node sibling).children fromParent.opp
    let closeNephew := (t.node sibling).children fromParent
    if t.isBlack distantNephew ∧ t.isBlack closeNephew then
      let t := t.setColor sibling .red
      let curr := parent
      match (t.node curr).parent with
      | none => some t
      | some parent => do
        require (t.hasChild parent curr)
        if (t.node curr).color = .red then some (t.setColor curr .black)
        else rbtree_remove_fixup n t parent (RBNODE_FROM_PARENT t parent curr)
    else do
      let (t, sibling) ←
        if t.isBlack distantNephew then do
          let closeNephew ← closeNephew
          require ((t.node closeNephew).color = .red)
          let t ← rbtree_rotate cb fuel t sibling fromParent.opp
          pure ((t.setColor sibling .red).setColor closeNephew .black, closeNephew)
        else pure (t, sibling)
      let nephew ← (t.node sibling).children fromParent.opp
      require ((t.node nephew).color = .red)
      let t ← rbtree_rotate cb fuel t parent fromParent
      let t := (t.setColor sibling (t.node parent).color).setColor parent .black
      match (t.node sibling).children fromParent.opp with
      | none => some t
      | some nephew => some (t.setColor nephew .black)

/-- The rest of `rbtree_remove` for a node with at most one child. -/
def rbtree_remove_single (t : rbtree_t P K A) (node : P) : Option (rbtree_t P K A) := do
  let child := match (t.node node).children .left with
    | some c => some c
    | none => (t.node node).children .right
  let parent := (t.node node).parent
  if (t.node node).color = .red then
    require (child = none)
    match parent with
    | none => rbtree_remove_sanitize cb fuel { t with root := none } node
    | some parent => do
      let fromParent := RBNODE_FROM_PARENT t parent node
      require ((t.node parent).children fromParent = some node)
      rbtree_remove_sanitize cb fuel (t.setChild parent fromParent none) node
  else
    match child with
    | some child => do
      require ((t.node child).color = .red)
      require ((t.node child).parent = some node)
      let t := t.setLink parent .right node (some child)
      let t := (t.setParent child parent).setColor child .black
      rbtree_remove_sanitize cb fuel t node
    | none =>
      match parent with
      | none => rbtree_remove_sanitize cb fuel { t with root := none } node
      | some parent => do
        let fromParent := RBNODE_FROM_PARENT t parent node
        require ((t.node parent).children fromParent = some node)
        let t ← rbtree_remove_sanitize cb fuel (t.setChild parent fromParent none) node
        let t ← rbtree_remove_fixup cb fuel fuel t parent fromParent
        return t.blackenRoot

def rbtree_remove_loop : Nat → rbtree_t P K A → P → Option (rbtree_t P K A)
  | 0, _, _ => none
  | n + 1, t, node =>
    if t.root ≠ some node ∧ (t.node node).parent = none then some t
    else do
      require (t.root = some node ∨ t.linked node)
      match (t.node node).children .left, (t.node node).children .right with
      | some _, some right => do
        let successor ← rbtree_find_min fuel t right
        require ((t.node successor).children .left = none)
        let t ← rbtree_swap cb fuel t node successor
        rbtree_remove_loop n t node
      | _, _ => rbtree_remove_single cb fuel t node

def rbtree_remove (t : rbtree_t P K A) (node : P) : Option (rbtree_t P K A) := rbtree_remove_loop cb fuel fuel t node

/-! ## Restoring the order -/

def rbtree_fix_loop : Nat → rbtree_t P K A → P → Option (rbtree_t P K A)
  | 0, _, _ => none
  | n + 1, t, node => do
    let next ← rbtree_next fuel t node
    match next.filter fun q => cb.compare (t.key node) (t.key q) > 0 with
    | some next => do
      let t ← rbtree_swap cb fuel t node next
      rbtree_fix_loop n t node
    | none => do
      let prev ← rbtree_prev fuel t node
      match prev.filter fun q => cb.compare (t.key node) (t.key q) < 0 with
      | some prev => do
        let t ← rbtree_swap cb fuel t node prev
        rbtree_fix_loop n t node
      | none => some t

def rbtree_fix (t : rbtree_t P K A) (node : P) : Option (rbtree_t P K A) := do
  let t ← rbtree_fix_loop cb fuel fuel t node
  rbtree_update_to_root cb fuel t (some node)

end Patchwork.RbTree
