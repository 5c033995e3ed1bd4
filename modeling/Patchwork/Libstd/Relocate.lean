import Patchwork.Lib.Runs
/-!
# Relocations of a module

`elf64_relocate` patches an image that has its lowest segment at `offset` and is loaded at
`base`. It adds `base` where the ABI adds `base - offset`, takes an undefined symbol for
zero unless the entry is for a table, adds the addend in a table, and always writes eight
bytes. So an entry is right only where these make no difference.
-/

namespace Patchwork.Elf

open Option Lib

abbrev Elf64_Addr := BitVec 64

def SHN_UNDEF : Nat := 0
def SHN_ABS : Nat := 0xfff1

inductive R_X86_64 where
  | R_64
  | PC32
  | GLOB_DAT
  | JUMP_SLOT
  | RELATIVE
  /-- Any other type. -/
  | unsupported

def ELF64_R_SYM (i : BitVec 64) : Nat := (i >>> 32).toNat

def ELF64_R_TYPE (i : BitVec 64) : R_X86_64 :=
  match (i &&& 0xffffffff#64).toNat with
  | 1 => .R_64
  | 2 => .PC32
  | 6 => .GLOB_DAT
  | 7 => .JUMP_SLOT
  | 8 => .RELATIVE
  | _ => .unsupported

structure Elf64_Rela where
  r_offset : Elf64_Addr
  r_info : BitVec 64
  r_addend : BitVec 64

/-- `name` is the string that `st_name` stands for. -/
structure Elf64_Sym where
  name : Option String
  st_shndx : Nat
  st_value : Elf64_Addr

/-- The sections of type `SHT_RELA`, with the symbols of the sections they are linked to. -/
abbrev File := List (List Elf64_Rela × List Elf64_Sym)

/-- An entry, and its symbol if there is one. -/
structure Entry extends Elf64_Rela where
  sym : Option Elf64_Sym

/-- In the order of the two loops. -/
def entries (file : File) : List Entry :=
  file.flatMap fun (relas, symbols) => relas.map fun r => ⟨r, symbols[ELF64_R_SYM r.r_info]?⟩

abbrev Memory := Elf64_Addr → BitVec 8

def byte (v : BitVec 64) (i : Nat) : BitVec 8 := v.extractLsb' (8 * i) 8

/-- The low bytes of a value are written, the lowest first. -/
def store (mem : Memory) (addr : Elf64_Addr) (width : Nat) (v : BitVec 64) : Memory :=
  fun a => if (a - addr).toNat < width then byte v (a - addr).toNat else mem a

/-- The arguments of `elf64_relocate` besides the file. -/
structure Args where
  base : Elf64_Addr
  offset : Elf64_Addr
  resolve_symbol : Option String → Elf64_Addr

namespace Args

variable (g : Args) (mem : Memory) (e : Entry)

def patchAddr : Elf64_Addr := g.base + (e.r_offset - g.offset)

/-- `base + value`. -/
def placed (sym : Elf64_Sym) : Elf64_Addr := g.base + if sym.st_shndx ≠ SHN_UNDEF then sym.st_value else 0

/-- A turn of the inner loop. -/
def patch : Option Memory :=
  let put := fun v => some (store mem (g.patchAddr e) 8 v)
  e.sym.bind fun sym =>
    match ELF64_R_TYPE e.r_info with
    | .R_64 => put (g.placed sym + e.r_addend)
    | .PC32 => put (g.placed sym + e.r_addend - g.patchAddr e)
    | .GLOB_DAT | .JUMP_SLOT =>
      if sym.st_shndx ≠ SHN_UNDEF then put (g.placed sym + e.r_addend)
      else if g.resolve_symbol sym.name = 0 then none
      else put (g.resolve_symbol sym.name)
    | .RELATIVE => put (g.base + e.r_addend)
    | .unsupported => none

def elf64_relocate (file : File) : Option Memory := run g.patch mem (entries file)

/-- `S` of the ABI: the address of a symbol in the image that is moved by `base - offset`. -/
def address (sym : Elf64_Sym) : Elf64_Addr :=
  if sym.st_shndx = SHN_UNDEF then g.resolve_symbol sym.name
  else if sym.st_shndx = SHN_ABS then sym.st_value
  else g.base - g.offset + sym.st_value

/-- What the ABI prescribes for an entry. -/
def abi : Memory :=
  let put := store mem (g.patchAddr e)
  e.sym.elim mem fun sym =>
    match ELF64_R_TYPE e.r_info with
    | .R_64 => put 8 (g.address sym + e.r_addend)
    | .PC32 => put 4 (g.address sym + e.r_addend - g.patchAddr e)
    | .GLOB_DAT | .JUMP_SLOT => put 8 (g.address sym)
    | .RELATIVE => put 8 (g.base - g.offset + e.r_addend)
    | .unsupported => mem

def Good : Prop := ∀ mem', g.patch mem e = some mem' → mem' = g.abi mem e

/-- What `base + value` lacks of the address of a symbol. -/
def gap (sym : Elf64_Sym) : BitVec 64 :=
  if sym.st_shndx = SHN_UNDEF then g.resolve_symbol sym.name - g.base
  else if sym.st_shndx = SHN_ABS then -g.base
  else -g.offset

def Fits : Prop :=
  ∀ sym ∈ e.sym,
    match ELF64_R_TYPE e.r_info with
    | .R_64 => g.gap sym = 0
    | .PC32 => (g.gap sym).setWidth 32 = 0 ∧ ∀ i, 4 ≤ i → i < 8 →
        mem (g.patchAddr e + BitVec.ofNat 64 i) = byte (g.placed sym + e.r_addend - g.patchAddr e) i
    | .GLOB_DAT | .JUMP_SLOT => sym.st_shndx = SHN_UNDEF ∨ e.r_addend = g.gap sym
    | .RELATIVE => g.offset = 0
    | .unsupported => True

end Args

variable {g : Args} {mem : Memory} {a v v' : BitVec 64} {e : Entry}

/-- Eight bytes are written for a field: the low ones are right, and the others were there. -/
theorem store_eq_iff {width : Nat} (hw : width ≤ 8) : store mem a 8 v = store mem a width v' ↔
    v.setWidth (8 * width) = v'.setWidth (8 * width) ∧
      ∀ i, width ≤ i → i < 8 → mem (a + BitVec.ofNat 64 i) = byte v i := by
  constructor
  · intro h
    have hbyte : ∀ i < 8, byte v i = if i < width then byte v' i else mem (a + BitVec.ofNat 64 i) := by
      intro i hi
      have hsub : (a + BitVec.ofNat 64 i - a).toNat = i := by bv_omega
      simpa only [store, hsub, if_pos hi] using congrFun h (a + BitVec.ofNat 64 i)
    constructor
    · ext j hj
      have hi : j / 8 < width := by omega
      have := congrArg (fun b => b.getLsbD (j % 8)) (hbyte (j / 8) (by omega))
      simpa [byte, hi, Nat.mod_lt, Nat.div_add_mod, hj] using this
    · intro i hi hi'
      rw [hbyte i hi', if_neg (by omega)]
  · rintro ⟨hlow, hrest⟩
    funext x
    have hx : a + BitVec.ofNat 64 (x - a).toNat = x := by rw [BitVec.ofNat_toNat, BitVec.setWidth_eq]; bv_omega
    unfold store
    generalize (x - a).toNat = i at hx
    split_ifs with h8 hi hi
    · ext j hj
      have := congrArg (fun b => b.getLsbD (8 * i + j)) hlow
      simpa [byte, hj, show 8 * i + j < 8 * width by omega] using this
    · rw [← hrest _ (by omega) h8, hx]
    · omega
    · rfl

theorem store_inj : store mem a 8 v = store mem a 8 v' ↔ v = v' := by
  rw [store_eq_iff (Nat.le_refl 8)]
  simp only [Nat.reduceMul, BitVec.setWidth_eq, and_iff_left_iff_imp]
  omega

theorem address_eq (sym : Elf64_Sym) : g.address sym = g.placed sym + g.gap sym := by
  unfold Args.address Args.placed Args.gap
  split_ifs <;> first | contradiction | bv_omega

theorem good_iff : g.Good mem e ↔ g.Fits mem e := by
  unfold Args.Good Args.Fits Args.patch Args.abi
  cases e.sym with
  | none => simp
  | some sym =>
    simp only [bind_some, elim_some, mem_def, some.injEq, forall_eq', address_eq]
    cases ELF64_R_TYPE e.r_info with
    | R_64 | RELATIVE =>
      simp only [some.injEq, forall_eq', store_inj]
      constructor <;> intro h <;> bv_omega
    | PC32 =>
      simp only [some.injEq, forall_eq', store_eq_iff (show 4 ≤ 8 by decide)]
      refine and_congr_left' ?_
      constructor <;> intro h <;> bv_omega
    | GLOB_DAT | JUMP_SLOT =>
      by_cases hu : sym.st_shndx = SHN_UNDEF
      · have hgap : g.placed sym + g.gap sym = g.resolve_symbol sym.name := by
          rw [← address_eq, Args.address, if_pos hu]
        simp [hu, hgap]
      · simp [hu, store_inj]
    | unsupported => simp

/-- An image with its lowest segment at `0x1000` and a pointer to its start. -/
def selfPointer : File := [([⟨0x1000, 8, 0x1000⟩], [⟨none, SHN_UNDEF, 0⟩])]

end Patchwork.Elf
