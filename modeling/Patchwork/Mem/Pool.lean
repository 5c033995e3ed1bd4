import Patchwork.Lib.Chain
import Patchwork.Lib.Agents
import Patchwork.Lib.Runs
/-!
# The lock-free pool

`mem/pool.c`, one step for each access to the pool. The free list is threaded
through the `next` fields of the elements, and `free` has its first index together
with a tag that every change advances. An exchange that succeeds therefore finds the
list as it was at the load, and the `next` that was read in between is the right one,
although by then another CPU might have owned the element.

`held` has the indices that were returned and not given back, and `version` counts
the changes of `free`; `since` is the version at a CPU's last load. The code has none
of them.
-/

namespace Patchwork.Pool

open BitVec Function Lib

/-! ## The tagged head -/

def POOL_IDX_MAX : BitVec 16 := 0xFFFF
def POOL_TAG_INC : BitVec 64 := 0x10000

theorem toNat_max : POOL_IDX_MAX.toNat = 65535 := by
  simp [POOL_IDX_MAX]

/-- `(pool_idx_t)(head & POOL_IDX_MAX)`. -/
def headIdx (head : BitVec 64) : BitVec 16 := (head &&& 0xFFFF#64).setWidth 16

/-- `((head & ~POOL_IDX_MAX) + POOL_TAG_INC) | idx`. -/
def newHead (head : BitVec 64) (idx : BitVec 16) : BitVec 64 :=
  ((head &&& ~~~0xFFFF#64) + POOL_TAG_INC) ||| idx.setWidth 64

def tag (head : BitVec 64) : Nat := head.toNat / 2 ^ 16

theorem getLsbD_mask (i : Nat) : (0xFFFF#64).getLsbD i = (decide (i < 64) && decide (i < 16)) := by
  rw [getLsbD_ofNat, show (0xFFFF : Nat) = 2 ^ 16 - 1 from rfl, Nat.testBit_two_pow_sub_one]

section
variable (head : BitVec 64) (idx : BitVec 16)

theorem headIdx_eq : headIdx head = head.setWidth 16 := by
  apply eq_of_getLsbD_eq
  intro i hi
  have hi' : i < 64 := by omega
  simp only [headIdx, getLsbD_setWidth, getLsbD_and, getLsbD_mask]
  simp [hi, hi']

theorem toNat_headIdx : (headIdx head).toNat = head.toNat % 2 ^ 16 := by
  rw [headIdx_eq, toNat_setWidth]

theorem toNat_mask : (head &&& ~~~0xFFFF#64).toNat = tag head * 2 ^ 16 := by
  have h : head &&& ~~~0xFFFF#64 = (head >>> 16) <<< 16 := by
    apply eq_of_getLsbD_eq
    intro i hi
    simp only [getLsbD_and, getLsbD_not, getLsbD_shiftLeft, getLsbD_ushiftRight,
      getLsbD_mask, hi]
    by_cases hlow : i < 16
    · simp [hlow]
    · simp [hlow, Nat.add_sub_of_le (Nat.le_of_not_lt hlow)]
  have hlt := head.isLt
  rw [h, toNat_shiftLeft, toNat_ushiftRight, Nat.shiftLeft_eq, Nat.shiftRight_eq_div_pow, tag]
  omega

theorem toNat_newHead : (newHead head idx).toNat = (tag head + 1) % 2 ^ 48 * 2 ^ 16 + idx.toNat := by
  have hinc : POOL_TAG_INC.toNat = 2 ^ 16 := rfl
  have hsum : ((head &&& ~~~0xFFFF#64) + POOL_TAG_INC).toNat = 2 ^ 16 * ((tag head + 1) % 2 ^ 48) := by
    rw [toNat_add, toNat_mask, hinc]
    omega
  have hlt : idx.toNat < 2 ^ 16 := idx.isLt
  have hidx : (idx.setWidth 64).toNat = idx.toNat := by
    rw [toNat_setWidth, Nat.mod_eq_of_lt (by omega)]
  rw [newHead, toNat_or, hsum, hidx, ← Nat.two_pow_add_eq_or_of_lt hlt, Nat.mul_comm]

@[simp] theorem headIdx_newHead : headIdx (newHead head idx) = idx := by
  have hlt : idx.toNat < 2 ^ 16 := idx.isLt
  rw [← toNat_inj, toNat_headIdx, toNat_newHead]
  omega

theorem tag_newHead : tag (newHead head idx) = (tag head + 1) % 2 ^ 48 := by
  have hlt : idx.toNat < 2 ^ 16 := idx.isLt
  rw [tag, toNat_newHead]
  omega

end

/-! ## The code -/

variable {C : Type} [DecidableEq C]

/-- `next` is the field of that name in each element. -/
structure pool_t where
  used : BitVec 64
  free : BitVec 64
  next : BitVec 16 → BitVec 16

/-- Where a CPU is. -/
inductive Place where
  | outside
  /-- In `pool_alloc`: before the load, before the read of `next`, before the
  exchange, and before `used` goes up. -/
  | allocLoad
  | allocNext (head : BitVec 64)
  | allocSwap (head : BitVec 64) (next : BitVec 16)
  | allocUsed (idx : BitVec 16)
  /-- In `pool_free`: before the load, before the write of `next`, before the
  exchange, and before `used` goes down. -/
  | freeLoad (idx : BitVec 16)
  | freeStore (idx : BitVec 16) (head : BitVec 64)
  | freeSwap (idx : BitVec 16) (head : BitVec 64)
  | freeUsed
deriving Repr, DecidableEq

namespace Place

/-- The element that is the CPU's own. -/
def owns : Place → Option (BitVec 16)
  | .allocUsed idx | .freeLoad idx | .freeStore idx _ | .freeSwap idx _ => some idx
  | .outside | .allocLoad | .allocNext _ | .allocSwap _ _ | .freeUsed => none

/-- The head that was loaded. -/
def head : Place → Option (BitVec 64)
  | .allocNext head | .allocSwap head _ | .freeStore _ head | .freeSwap _ head => some head
  | .outside | .allocLoad | .allocUsed _ | .freeLoad _ | .freeUsed => none

def freeing : Place → Bool
  | .freeLoad _ | .freeStore _ _ | .freeSwap _ _ | .freeUsed => true
  | .outside | .allocLoad | .allocNext _ | .allocSwap _ _ | .allocUsed _ => false

end Place

structure System (C : Type) where
  pool : pool_t
  place : C → Place
  held : Finset (BitVec 16)
  version : Nat
  since : C → Nat

/-- The loop writes the `next` of the elements that there are. -/
def pool_init (capacity : Nat) (memory : BitVec 16 → BitVec 16) : pool_t where
  used := 0
  free := 0
  next := fun i =>
    if i.toNat < capacity then if i.toNat = capacity - 1 then POOL_IDX_MAX else i + 1 else memory i

def init (capacity : Nat) (memory : BitVec 16 → BitVec 16) : System C where
  pool := pool_init capacity memory
  place := fun _ => .outside
  held := ∅
  version := 0
  since := fun _ => 0

def System.goto (s : System C) (c : C) (p : Place) : System C := { s with place := update s.place c p }

/-- `head` is loaded from `free`. -/
def System.load (s : System C) (c : C) (p : Place) : System C :=
  { s.goto c p with since := update s.since c s.version }

/-- `free` is exchanged. -/
def System.swap (s : System C) (c : C) (head : BitVec 64) (p : Place) : System C :=
  { s.goto c p with pool := { s.pool with free := head }, version := s.version + 1 }

/-- The next access of a CPU that is in `pool_alloc` or `pool_free`. A weak exchange
may fail for no reason. -/
def advance (s : System C) (c : C) (fails : Bool) : Option (System C) :=
  match s.place c with
  | .outside => none
  | .allocLoad =>
    if headIdx s.pool.free = POOL_IDX_MAX then some (s.goto c .outside)
    else some (s.load c (.allocNext s.pool.free))
  | .allocNext head => some (s.goto c (.allocSwap head (s.pool.next (headIdx head))))
  | .allocSwap head next =>
    if s.pool.free = head ∧ fails = false then some (s.swap c (newHead head next) (.allocUsed (headIdx head)))
    else some (s.goto c .allocLoad)
  | .allocUsed idx =>
    some
      { s.goto c .outside with
        pool := { s.pool with used := s.pool.used + 1 }
        held := insert idx s.held }
  | .freeLoad idx => some (s.load c (.freeStore idx s.pool.free))
  | .freeStore idx head =>
    some
      { s.goto c (.freeSwap idx head) with
        pool := { s.pool with next := update s.pool.next idx (headIdx head) } }
  | .freeSwap idx head =>
    if s.pool.free = head ∧ fails = false then some (s.swap c (newHead head idx) .freeUsed)
    else some (s.goto c (.freeLoad idx))
  | .freeUsed => some { s.goto c .outside with pool := { s.pool with used := s.pool.used - 1 } }

inductive Action (C : Type) where
  | alloc (c : C)
  /-- Someone gives back an index that is held. -/
  | free (c : C) (idx : BitVec 16)
  /-- The holder writes to the `next` of its element. -/
  | write (idx value : BitVec 16)
  | advance (c : C) (fails : Bool)
deriving Repr, DecidableEq

def step (s : System C) : Action C → Option (System C)
  | .alloc c => if s.place c = .outside then some (s.goto c .allocLoad) else none
  | .free c idx =>
    if s.place c = .outside ∧ idx ∈ s.held then
      some { s.goto c (.freeLoad idx) with held := s.held.erase idx }
    else none
  | .write idx value =>
    if idx ∈ s.held then
      some { s with pool := { s.pool with next := update s.pool.next idx value } }
    else none
  | .advance c fails => advance s c fails

/-! ## What the pool is for -/

/-- The index is held, or on its way to a holder or back to the free list. -/
def Owned (s : System C) (i : BitVec 16) : Prop := i ∈ s.held ∨ ∃ c, (s.place c).owns = some i

/-- The free list has exactly the indices that nobody has, each once, and at rest
`used` is the number of those held. -/
structure Right (capacity : Nat) (s : System C) : Prop where
  list : ∃ l, Linked POOL_IDX_MAX s.pool.next (headIdx s.pool.free) l ∧ l.Nodup ∧
    ∀ i, i ∈ l ↔ i.toNat < capacity ∧ ¬ Owned s i
  used : (∀ c, s.place c = .outside) → s.pool.used.toNat = s.held.card

/-- An index that `pool_alloc` takes is an index that nobody has, and it gives up
only at an empty list. -/
def Served (capacity : Nat) (s : System C) : Action C → Prop
  | .advance c fails => ∀ s', step s (.advance c fails) = some s' →
    (∀ head next, s.place c = .allocSwap head next → ∀ i, s'.place c = .allocUsed i →
      i.toNat < capacity ∧ ¬ Owned s i) ∧
    (s.place c = .allocLoad → s'.place c = .outside →
      Linked POOL_IDX_MAX s.pool.next (headIdx s.pool.free) [])
  | _ => True

/-- The tag has not gone all the way round between a load and the exchange. -/
def Timely (s : System C) : Action C → Prop
  | .advance c _ => ∀ head ∈ (s.place c).head, head = s.pool.free → s.version < s.since c + 2 ^ 48
  | _ => True

instance (s : System C) : ∀ a, Decidable (Timely s a)
  | .advance c _ =>
    match h : (s.place c).head with
    | none => .isTrue fun _ hm => by rw [h] at hm; cases hm
    | some head => decidable_of_iff (head = s.pool.free → s.version < s.since c + 2 ^ 48) (by simp [Timely, h])
  | .alloc _ | .free _ _ | .write _ _ => inferInstanceAs (Decidable True)

end Patchwork.Pool
