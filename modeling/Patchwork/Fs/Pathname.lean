import Mathlib.Data.List.Basic
import Mathlib.Tactic.SplitIfs
/-!
# Pathnames and modes

`pathname_init` and `mode_check` of `path.c`. A pathname is a path, cut into names by
`/`, and the flags that follow the first `:`. A mode holds flags and permissions
together; `Within` compares the permissions of two modes.
-/

namespace Patchwork.Vfs

open BitVec

inductive errno_t where
  | EINVAL | ENAMETOOLONG | ENOENT | ELOOP | EACCES | EEXIST | EPERM | ENOTDIR | EISDIR | EXDEV | EBUSY
  | ENOTEMPTY | EBADF | ENOMEM | EIO
deriving Repr, DecidableEq

def MAX_PATH : Nat := 256
def MAX_NAME : Nat := 32

/-! ## Modes -/

abbrev mode_t := BitVec 32

def MODE_NONE : mode_t := 0#32
def MODE_READ : mode_t := 0x1#32
def MODE_WRITE : mode_t := 0x2#32
def MODE_EXECUTE : mode_t := 0x4#32
def MODE_NONBLOCK : mode_t := 0x8#32
def MODE_APPEND : mode_t := 0x10#32
def MODE_CREATE : mode_t := 0x20#32
def MODE_EXCLUSIVE : mode_t := 0x40#32
def MODE_PARENTS : mode_t := 0x80#32
def MODE_TRUNCATE : mode_t := 0x100#32
def MODE_DIRECTORY : mode_t := 0x200#32
def MODE_RECURSIVE : mode_t := 0x400#32
def MODE_NOFOLLOW : mode_t := 0x800#32
def MODE_PRIVATE : mode_t := 0x1000#32
def MODE_PROPAGATE : mode_t := 0x2000#32
def MODE_LOCKED : mode_t := 0x4000#32
def MODE_ALL_PERMS : mode_t := MODE_READ ||| MODE_WRITE ||| MODE_EXECUTE

/-- `mode & flag`, as a condition. -/
def has (mode flag : mode_t) : Bool := mode &&& flag != 0#32

def mode_check (mode maxPerms : mode_t) : Except errno_t mode_t :=
  if (mode &&& MODE_ALL_PERMS) &&& ~~~maxPerms ≠ MODE_NONE then .error .EACCES
  else if mode &&& MODE_ALL_PERMS = MODE_NONE then .ok (mode ||| (maxPerms &&& MODE_ALL_PERMS))
  else .ok mode

/-- The permissions of `a` are among those of `b`. -/
def Within (a b : mode_t) : Prop := (a &&& MODE_ALL_PERMS) &&& ~~~b = 0#32

instance (a b : mode_t) : Decidable (Within a b) := inferInstanceAs (Decidable (_ = _))

variable {a b c mode mode' maxPerms : mode_t}

theorem within_iff : Within a b ↔ ∀ i, i < 32 → a.getLsbD i = true → MODE_ALL_PERMS.getLsbD i = true →
    b.getLsbD i = true := by
  constructor
  · intro h i hi ha hp
    have hbit := congrArg (fun x : BitVec 32 => x.getLsbD i) h
    simpa [ha, hp, hi] using hbit
  · intro h
    apply eq_of_getLsbD_eq
    intro i hi
    have hbit := h i hi
    simp only [getLsbD_and, getLsbD_not, hi, decide_true, Bool.true_and, getLsbD_zero]
    cases ha : a.getLsbD i <;> cases hp : MODE_ALL_PERMS.getLsbD i <;> simp_all

/-- No permission was asked for, so all that are allowed are added. -/
theorem Within.added (hnone : mode &&& MODE_ALL_PERMS = MODE_NONE) (h : Within maxPerms b) :
    Within (mode ||| (maxPerms &&& MODE_ALL_PERMS)) b := by
  rw [within_iff] at h ⊢
  intro i hi hmode hp
  have hbit := congrArg (fun x : BitVec 32 => x.getLsbD i) hnone
  simp only [getLsbD_and, hp, Bool.and_true, MODE_NONE, getLsbD_zero] at hbit
  exact h i hi (by simpa [hp, hbit] using hmode) hp

theorem within_of_check (h : mode_check mode maxPerms = .ok mode') : Within mode' maxPerms := by
  rw [mode_check] at h
  split_ifs at h with hacc hnone
  · obtain rfl := Except.ok.inj h
    exact .added hnone (within_iff.2 fun _ _ hi _ => hi)
  · obtain rfl := Except.ok.inj h
    exact not_not.1 hacc

theorem Within.readOnly (h : Within a b) (hb : has b MODE_WRITE = false) : has a MODE_WRITE = false := by
  have hbit : ∀ x : mode_t, has x MODE_WRITE = x.getLsbD 1 := by
    intro x
    rw [has, show MODE_WRITE = BitVec.twoPow 32 1 by decide, and_twoPow]
    cases x.getLsbD 1 <;> decide
  rw [hbit, Bool.eq_false_iff] at hb ⊢
  exact fun ha => hb (within_iff.1 h 1 (by decide) ha (by decide))

/-! ## Pathnames -/

abbrev name_t := List Char

structure pathname_t where
  string : List Char
  mode : mode_t
deriving DecidableEq

def shortFlag : Char → mode_t
  | 'r' => MODE_READ
  | 'w' => MODE_WRITE
  | 'x' => MODE_EXECUTE
  | 'n' => MODE_NONBLOCK
  | 'a' => MODE_APPEND
  | 'c' => MODE_CREATE
  | 'e' => MODE_EXCLUSIVE
  | 'p' => MODE_PARENTS
  | 't' => MODE_TRUNCATE
  | 'd' => MODE_DIRECTORY
  | 'R' => MODE_RECURSIVE
  | 'l' => MODE_NOFOLLOW
  | 'P' => MODE_PRIVATE
  | 'g' => MODE_PROPAGATE
  | 'L' => MODE_LOCKED
  | _ => MODE_NONE

def flags : List (mode_t × List Char) :=
  [(MODE_READ, "read".toList), (MODE_WRITE, "write".toList), (MODE_EXECUTE, "execute".toList),
    (MODE_NONBLOCK, "nonblock".toList), (MODE_APPEND, "append".toList), (MODE_CREATE, "create".toList),
    (MODE_EXCLUSIVE, "exclusive".toList), (MODE_PARENTS, "parents".toList), (MODE_TRUNCATE, "truncate".toList),
    (MODE_DIRECTORY, "directory".toList), (MODE_RECURSIVE, "recursive".toList), (MODE_NOFOLLOW, "nofollow".toList),
    (MODE_PRIVATE, "private".toList), (MODE_PROPAGATE, "propagate".toList), (MODE_LOCKED, "locked".toList)]

/-- The name of a flag, or else a word of short flags. -/
def path_flag_to_mode (flag : List Char) : mode_t :=
  match flags.find? fun f => f.2 == flag with
  | some f => f.1
  | none => if flag.all fun c => shortFlag c != MODE_NONE then flag.foldl (fun m c => m ||| shortFlag c) MODE_NONE
    else MODE_NONE

def path_is_char_valid (ch : Char) : Bool :=
  31 < ch.toNat && !(['<', '>', ':', '\"', '/', '\\', '|', '?', '*'].contains ch)

/-- The first loop of `pathname_init`: the path, and what follows it from the `:` on.
`length` counts the characters of the current name. -/
def pathname_scan (length : Nat) : List Char → Except errno_t (List Char × List Char)
  | [] => .ok ([], [])
  | c :: cs =>
    if c = ':' then .ok ([], c :: cs)
    else if c = '/' then (pathname_scan 0 cs).map fun r => (c :: r.1, r.2)
    else if !path_is_char_valid c then .error .EINVAL
    else if MAX_NAME ≤ length + 1 then .error .ENAMETOOLONG
    else (pathname_scan (length + 1) cs).map fun r => (c :: r.1, r.2)

/-- One token of the flags. -/
def pathname_flag (mode : mode_t) (token : List Char) : Except errno_t mode_t :=
  if !token.all Char.isAlphanum then .error .EINVAL
  else if MAX_NAME ≤ token.length then .error .ENAMETOOLONG
  else if path_flag_to_mode token = MODE_NONE then .error .EINVAL
  else .ok (mode ||| path_flag_to_mode token)

def pathname_init (string : List Char) : Except errno_t pathname_t := do
  if MAX_PATH ≤ string.length then throw .ENAMETOOLONG
  let (path, rest) ← pathname_scan 0 string
  let mode ← ((rest.splitOn ':').filter (· ≠ [])).foldlM pathname_flag MODE_NONE
  return { string := path, mode := mode }

/-- The names of a path, as the loop of `path_rcu_walk` finds them. -/
def components (string : List Char) : List name_t := (string.splitOn '/').filter (· ≠ [])

example : (pathname_init "/dev/sda:read:w".toList).toOption =
    some { string := "/dev/sda".toList, mode := MODE_READ ||| MODE_WRITE } := by decide +kernel

example : components "/usr//bin/init".toList = ["usr".toList, "bin".toList, "init".toList] := by decide +kernel

end Patchwork.Vfs
