import Patchwork.Io.Ring
import Patchwork.Mem.Pmm
import Patchwork.Utils.MapResize
/-!
# The memory of an I/O ring

`SYS_SETUP` puts the control block, the submission entries and the completion entries of a
ring one after the other into pages that the kernel and the process both map. The number of
pages comes from a sum modulo `2 ^ 64`, the masks of the indices from the sizes themselves,
and nothing but the number of pages limits the submission entries.
-/

namespace Patchwork.RingLayout

open Lib Patchwork.Map
open Patchwork.Ring (POOL_IDX_MAX)

def CONFIG_MAX_RINGS_PAGES : Nat := 1024

/-- `sizeof(ioring_ctrl_t)`. -/
def CTRL_SIZE : Nat := 192
/-- `sizeof(sqe_t)`. -/
def SQE_SIZE : Nat := 64
/-- `sizeof(cqe_t)`. -/
def CQE_SIZE : Nat := 32

inductive errno_t where
  | EINVAL | EMFILE | ENOMEM
  /-- What a called function has set. -/
  | inherited
deriving Repr, DecidableEq

structure ioring_t where
  ctrl : Nat
  id : Nat
  squeue : Nat
  sentries : Nat
  smask : Nat
  cqueue : Nat
  centries : Nat
  cmask : Nat
deriving Repr, DecidableEq

/-- Where `vmm_map_pages` maps pages. -/
structure Region (pages : Nat) where
  addr : Nat
  fits : addr + pages * PAGE_SIZE ≤ 2 ^ 64

/-- What the calls of `SYS_SETUP` return: the number of a ring that is not in use, and
whether there are pages, places for them, and a pool. -/
structure Outcome where
  id : Option Nat
  pmm_alloc_pages : Bool
  kernelAddr : ∀ pages, Option (Region pages)
  userAddr : ∀ pages, Option (Region pages)
  irp_pool_new : Bool

structure Mapped where
  pageAmount : Nat
  kernelAddr : Region pageAmount
  userAddr : Region pageAmount
  kernelRing : ioring_t
  userRing : ioring_t

/-- The assignments to `kernelRing`, and to `userRing`. -/
def ringAt (addr id sentries centries : Nat) : ioring_t where
  ctrl := addr
  id := id
  squeue := (addr + CTRL_SIZE) % 2 ^ 64
  sentries := sentries
  smask := sentries - 1
  cqueue := (addr + CTRL_SIZE + sentries * SQE_SIZE) % 2 ^ 64
  centries := centries
  cmask := centries - 1

def pageAmount (sentries centries : Nat) : Nat :=
  BYTES_TO_PAGES ((CTRL_SIZE + sentries * SQE_SIZE + centries * CQE_SIZE) % 2 ^ 64)

def ioring_ctx_map (o : Outcome) (id sentries centries : Nat) : Except errno_t Mapped :=
  if CONFIG_MAX_RINGS_PAGES ≤ pageAmount sentries centries then .error .ENOMEM
  else if POOL_IDX_MAX ≤ centries then .error .EINVAL
  else if !o.pmm_alloc_pages then .error .ENOMEM
  else
    match o.kernelAddr (pageAmount sentries centries), o.userAddr (pageAmount sentries centries) with
    | some kernelAddr, some userAddr =>
      if !o.irp_pool_new then .error .inherited
      else .ok {
        pageAmount := pageAmount sentries centries
        kernelAddr := kernelAddr
        userAddr := userAddr
        kernelRing := ringAt kernelAddr.addr id sentries centries
        userRing := ringAt userAddr.addr id sentries centries }
    | _, _ => .error .inherited

def SYS_SETUP (o : Outcome) (userRing : Option Nat) (sentries centries : Nat) : Except errno_t Mapped :=
  if userRing = none ∨ sentries = 0 ∨ centries = 0 ∨ !IS_POW2 sentries ∨ !IS_POW2 centries then .error .EINVAL
  else
    match o.id with
    | none => .error .EMFILE
    | some id => ioring_ctx_map o id sentries centries

/-- `&ring->squeue[i & ring->smask]`. -/
def ioring_t.sqe (ring : ioring_t) (i : Nat) : Nat := (ring.squeue + (i &&& ring.smask) * SQE_SIZE) % 2 ^ 64

/-- `&ring->cqueue[i & ring->cmask]`. -/
def ioring_t.cqe (ring : ioring_t) (i : Nat) : Nat := (ring.cqueue + (i &&& ring.cmask) * CQE_SIZE) % 2 ^ 64

/-- The address and the size of the control block and of two entries. -/
def ioring_t.areas (ring : ioring_t) (i j : Nat) : List (Nat × Nat) :=
  [(ring.ctrl, CTRL_SIZE), (ring.sqe i, SQE_SIZE), (ring.cqe j, CQE_SIZE)]

/-- What one side reaches of its ring with indices of 32 bits is in the pages and apart. -/
def Geometry {pages : Nat} (r : Region pages) (ring : ioring_t) : Prop :=
  ∀ i < 2 ^ 32, ∀ j < 2 ^ 32,
    (∀ a ∈ ring.areas i j, r.addr ≤ a.1 ∧ a.1 + a.2 ≤ r.addr + pages * PAGE_SIZE) ∧
    (ring.areas i j).Pairwise fun a b => a.1 + a.2 ≤ b.1 ∨ b.1 + b.2 ≤ a.1

section
variable {sentries centries id : Nat} (r : Region (pageAmount sentries centries))

/-- As long as the submission entries have fewer than `2 ^ 64` bytes, the sum is exact. -/
theorem size_le_pages (hs : sentries < 2 ^ 58) (hpow : IsPow2 sentries) (hc : centries < POOL_IDX_MAX) :
    CTRL_SIZE + sentries * SQE_SIZE + centries * CQE_SIZE ≤ pageAmount sentries centries * PAGE_SIZE := by
  have hle : sentries ≤ 2 ^ 57 := by
    obtain ⟨k, rfl⟩ := hpow
    exact Nat.pow_le_pow_right (by decide) (Nat.lt_succ_iff.1 ((Nat.pow_lt_pow_iff_right (by decide)).1 hs))
  simp only [pageAmount, BYTES_TO_PAGES, PAGE_SIZE, CTRL_SIZE, SQE_SIZE, CQE_SIZE]
  rw [POOL_IDX_MAX] at hc
  omega

theorem geometry_of_lt (hs : sentries < 2 ^ 58) (hspow : IsPow2 sentries) (hcpow : IsPow2 centries)
    (hc : centries < POOL_IDX_MAX) : Geometry r (ringAt r.addr id sentries centries) := by
  intro i _ j _
  have hsize := size_le_pages hs hspow hc
  have hregion := r.fits
  have hi : i % sentries < sentries := Nat.mod_lt i (hspow.elim fun k hk => hk ▸ Nat.two_pow_pos k)
  have hj : j % centries < centries := Nat.mod_lt j (hcpow.elim fun k hk => hk ▸ Nat.two_pow_pos k)
  simp only [CTRL_SIZE, SQE_SIZE, CQE_SIZE] at hsize
  -- the entries are where they are without the remainders
  have hsqe : (ringAt r.addr id sentries centries).sqe i = r.addr + 192 + i % sentries * 64 := by
    simp only [ioring_t.sqe, ringAt, land_pred hspow, CTRL_SIZE, SQE_SIZE]
    omega
  have hcqe : (ringAt r.addr id sentries centries).cqe j = r.addr + 192 + sentries * 64 + j % centries * 32 := by
    simp only [ioring_t.cqe, ringAt, land_pred hcpow, CTRL_SIZE, SQE_SIZE, CQE_SIZE]
    omega
  have hctrl : (ringAt r.addr id sentries centries).ctrl = r.addr := rfl
  simp only [ioring_t.areas, hctrl, hsqe, hcqe, CTRL_SIZE, SQE_SIZE, CQE_SIZE, List.forall_mem_cons,
    List.pairwise_cons, List.not_mem_nil, List.Pairwise.nil, false_imp_iff, implies_true, and_true]
  omega

/-- With `2 ^ 58` submission entries or more, the last index is outside of the few pages. -/
theorem not_geometry (hs : 2 ^ 58 ≤ sentries) (hspow : IsPow2 sentries)
    (hpages : pageAmount sentries centries < CONFIG_MAX_RINGS_PAGES) :
    ¬ Geometry r (ringAt r.addr id sentries centries) := by
  intro h
  have hregion := r.fits
  obtain ⟨hlow, hhigh⟩ := (h (2 ^ 32 - 1) (by decide) 0 (by decide)).1 (_, _) (.tail _ (.head _))
  have hmod : (2 ^ 32 - 1) % sentries = 2 ^ 32 - 1 := Nat.mod_eq_of_lt (by omega)
  simp only [ioring_t.sqe, ringAt, land_pred hspow, hmod, CTRL_SIZE, SQE_SIZE] at hlow hhigh
  simp only [CONFIG_MAX_RINGS_PAGES, PAGE_SIZE] at hpages hregion hhigh
  omega

end

theorem map_ok {o : Outcome} {id sentries centries : Nat} {m : Mapped}
    (h : ioring_ctx_map o id sentries centries = .ok m) :
    pageAmount sentries centries < CONFIG_MAX_RINGS_PAGES ∧ centries < POOL_IDX_MAX ∧
    ∃ k u : Region (pageAmount sentries centries),
      m = ⟨_, k, u, ringAt k.addr id sentries centries, ringAt u.addr id sentries centries⟩ := by
  unfold ioring_ctx_map at h
  split_ifs at h with hpages hpool
  · split at h <;> cases h
  · split at h
    · cases h
      exact ⟨Nat.lt_of_not_le hpages, Nat.lt_of_not_le hpool, _, _, rfl⟩
    · cases h

/-- Where a ring is set up, kernel and process reach only what is mapped, and the three
areas are apart, exactly if the size of the submission entries does not wrap. -/
theorem ring_geometry_iff (o : Outcome) (userRing : Option Nat) (sentries centries : Nat)
    (hs : sentries < 2 ^ 64) (hc : centries < 2 ^ 64) (m : Mapped)
    (h : SYS_SETUP o userRing sentries centries = .ok m) :
    (Geometry m.kernelAddr m.kernelRing ∧ Geometry m.userAddr m.userRing) ↔ sentries < 2 ^ 58 := by
  unfold SYS_SETUP at h
  split_ifs at h with hbad
  simp only [not_or, Bool.not_eq_true', Bool.not_eq_false] at hbad
  obtain ⟨-, hs0, hc0, hspow, hcpow⟩ := hbad
  replace hspow := ((is_pow2_iff hs).1 hspow).resolve_left hs0
  replace hcpow := ((is_pow2_iff hc).1 hcpow).resolve_left hc0
  split at h
  · cases h
  · obtain ⟨hpages, hpool, k, u, rfl⟩ := map_ok h
    constructor
    · rintro ⟨hgeometry, -⟩
      by_contra hwrap
      exact not_geometry k (Nat.le_of_not_lt hwrap) hspow hpages hgeometry
    · intro hlt
      exact ⟨geometry_of_lt k hlt hspow hcpow hpool, geometry_of_lt u hlt hspow hcpow hpool⟩

/-- Everything is there, and both sides map the pages at the same address. -/
def plenty : Outcome :=
  let region := fun pages => if h : 0x1000 + pages * PAGE_SIZE ≤ 2 ^ 64 then some ⟨0x1000, h⟩ else none
  { id := some 0, pmm_alloc_pages := true, kernelAddr := region, userAddr := region, irp_pool_new := true }

theorem smallRing_geometry : ∃ m, SYS_SETUP plenty (some 0) 64 128 = .ok m ∧
    Geometry m.kernelAddr m.kernelRing ∧ Geometry m.userAddr m.userRing :=
  ⟨_, rfl, (ring_geometry_iff plenty (some 0) 64 128 (by decide) (by decide) _ rfl).2 (by decide)⟩

/-- A ring of one page that has `2 ^ 58` submission entries. -/
theorem hugeRing_outside : ∃ m, SYS_SETUP plenty (some 0) (2 ^ 58) 1 = .ok m ∧ m.pageAmount = 1 ∧
    ¬ Geometry m.kernelAddr m.kernelRing :=
  ⟨_, rfl, by decide, not_geometry _ (Nat.le_refl _) ⟨58, rfl⟩ (by decide)⟩

end Patchwork.RingLayout
