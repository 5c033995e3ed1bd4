import Patchwork.Fs.Walk
/-!
# The calls of the virtual file system

`vfs.c` and the tmpfs operations under it: open with its flags, write, link, symlink and
remove. Each call says what it leaves behind, what it returns and which paths it has
resolved to the objects it works on.

Errors of allocation and the callbacks of other file systems are left out: a vnode that
is not of tmpfs has neither directory operations nor a `write`.
-/

namespace Patchwork.Vfs

open Lib

structure file_t where
  path : path_t
  mode : mode_t
  vnode : Nat
  pos : Nat
deriving DecidableEq

/-- How a call fails: with an error, with `ERR` alone, or the kernel follows a null pointer. -/
inductive Failure where
  | errno (e : errno_t)
  | silent
  | fault
deriving DecidableEq

structure Outcome (α : Type) where
  s : System
  result : Except Failure α
  /-- The paths that the call works on. For a name that is to be removed it is the
  directory of the dentry, under the mount of the path. -/
  paths : List path_t

/-! ## The last name of a path -/

/-- Without the slashes at the end, except for the first character. -/
def strip_slashes (string : List Char) : List Char :=
  match (string.reverse.dropWhile (· == '/')).reverse with
  | [] => string.take 1
  | stripped => stripped

/-- What stands before the last slash, and what follows it. -/
def cut_last (string : List Char) : Option (List Char × List Char) :=
  if '/' ∈ string then
    let last := (string.reverse.takeWhile (· != '/')).reverse
    some (string.take (string.length - last.length - 1), last)
  else none

def parent_string (before : List Char) : List Char := if before = [] then ['/'] else before

example : cut_last (strip_slashes "/usr/bin//".toList) = some ("/usr".toList, "bin".toList) := by decide +kernel

def path_walk_parent (s : System) (n : Nat) (p : path_t) (pathname : pathname_t) : Except errno_t (Ctx × name_t) :=
  if pathname.string = ['/'] then .error .EINVAL
  else
    match cut_last (strip_slashes pathname.string) with
    | none => .ok ({ s := s, path := some p }, (strip_slashes pathname.string).take (MAX_NAME - 1))
    | some (before, last) =>
      pathname_init (parent_string before) >>= fun parent =>
        (path_walk s n p parent).map fun c => (c, last.take (MAX_NAME - 1))

structure Found where
  s : System
  parent : path_t
  child : path_t

/-- The step from the directory to the name in it. -/
def walk_child (n : Nat) (mode : mode_t) (r : Ctx × name_t) : Except errno_t Found :=
  match r.1.path with
  | none => .error (if path_is_name_valid r.2 then .ENOENT else .EINVAL)
  | some parent =>
    path_step r.1.s n mode parent r.2 >>= fun c =>
      match c.path with
      | none => .error .ENOENT
      | some child => .ok { s := c.s, parent := parent, child := child }

def path_walk_parent_and_child (s : System) (n : Nat) (p : path_t) (pathname : pathname_t) : Except errno_t Found :=
  path_walk_parent s n p pathname >>= walk_child n pathname.mode

/-- What walks keep holds at the name and in its directory. -/
theorem Keeps.found {I : Ctx → Prop} {s : System} {n : Nat} {p : path_t} {pathname : pathname_t} {f : Found}
    (hk : Keeps n I) (hc : I { s := s, path := some p }) (h : path_walk_parent_and_child s n p pathname = .ok f) :
    I { s := f.s, path := some f.child } := by
  obtain ⟨⟨c, name⟩, hc', hf⟩ := bind_eq_ok.1 h
  have hparent : I c := by
    rw [path_walk_parent] at hc'
    split_ifs at hc'
    split at hc'
    · rw [← (Prod.mk.inj (Except.ok.inj hc')).1]
      exact hc
    · obtain ⟨parent, _, hc'⟩ := bind_eq_ok.1 hc'
      obtain ⟨c', hw, heq⟩ := map_eq_ok.1 hc'
      rw [← (Prod.mk.inj heq).1]
      exact hk.walk hc hw
  rw [walk_child] at hf
  split at hf
  · exact absurd hf (by simp)
  · next parent hp =>
    obtain ⟨c', hstep, hf⟩ := bind_eq_ok.1 hf
    have hchild : I c' := hk.step (by rw [← hp]; exact hparent) hstep
    split at hf
    · exact absurd hf (by simp)
    · next child hchild' =>
      rw [← Except.ok.inj hf]
      rw [← hchild']
      exact hchild

/-! ## The operations of tmpfs -/

def tmpfs_vnode_new (s : Store) (type : vtype_t) (data : List Char) : Store :=
  { s with
    vnode := Function.update s.vnode s.vfresh { type := type, data := data, tmpfs := true }
    vfresh := s.vfresh + 1 }

def tmpfs_create (s : Store) (target : Nat) (mode : mode_t) : Store :=
  dentry_make_positive (tmpfs_vnode_new s (if has mode MODE_DIRECTORY then .VDIR else .VREG) []) target s.vfresh

/-- With the vnode of the old name. -/
def tmpfs_link (s : Store) (old target : Nat) : Store :=
  match (s.dentry old).vnode with
  | some v => dentry_make_positive s target v
  | none => s

/-- `malloc (0)` fails without an `errno`. -/
def tmpfs_symlink (s : Store) (target : Nat) (dest : List Char) : Except Failure Store :=
  if dest = [] then .error .silent
  else .ok (dentry_make_positive (tmpfs_vnode_new s .VSYMLINK dest) target s.vfresh)

def tmpfs_remove (s : Store) (target : Nat) : Except Failure Store :=
  match (s.dentry target).vnode with
  | none => .error .fault
  | some v =>
    if (s.vnode v).type = .VDIR ∧ (s.dentry target).children ≠ [] then .error (.errno .ENOTEMPTY)
    else .ok (dentry_remove s target)

/-- The data after a write, and the offset. The required size is a `size_t`. -/
def tmpfs_write (data buffer : List Char) (offset : Nat) : List Char × Nat :=
  let requiredSize := (offset + buffer.length) % 2 ^ 64
  let data := data ++ List.replicate (requiredSize - data.length) (Char.ofNat 0)
  let writeCount := if offset ≤ data.length then min buffer.length (data.length - offset) else 0
  (data.take offset ++ buffer.take writeCount ++ data.drop (offset + writeCount), offset + writeCount)

def Store.setData (s : Store) (v : Nat) (data : List Char) : Store :=
  { s with vnode := Function.update s.vnode v { s.vnode v with data := data } }

def vnode_truncate (s : Store) (v : Nat) : Store := if (s.vnode v).tmpfs then s.setData v [] else s

/-! ## Open -/

def writable (s : System) (p : path_t) : Bool := has (s.mount p.mount).mode MODE_WRITE

def Found.returns {α : Type} (f : Found) (result : Except Failure α) : Outcome α :=
  { s := f.s, result := result, paths := [f.parent, f.child] }

/-- `vfs_create` once directory and name are found. -/
def create_found (f : Found) (mode : mode_t) : Outcome path_t :=
  match (f.s.store.dentry f.parent.dentry).vnode with
  | none => f.returns (.error (.errno .ENOENT))
  | some dir =>
    if !(f.s.store.vnode dir).tmpfs then f.returns (.error (.errno .EPERM))
    else if f.s.store.isPositive f.child.dentry then
      if has mode MODE_EXCLUSIVE then f.returns (.error (.errno .EEXIST)) else f.returns (.ok f.child)
    else if !writable f.s f.parent then f.returns (.error (.errno .EACCES))
    else
      { f.returns (.ok f.child) with s := { f.s with store := tmpfs_create f.s.store f.child.dentry mode } }

def fails {α : Type} (s : System) (e : errno_t) : Outcome α := { s := s, result := .error (.errno e), paths := [] }

/-- The parent that `MODE_PARENTS` creates when the walk has failed. -/
def missing_parent (pathname : pathname_t) (e : errno_t) : Except errno_t pathname_t :=
  if e ≠ .ENOENT ∨ !has pathname.mode MODE_PARENTS then .error e
  else
    match cut_last (strip_slashes pathname.string) with
    | none => .error e
    | some (before, _) =>
      (pathname_init (parent_string before)).map fun parent =>
        { parent with mode := MODE_DIRECTORY ||| MODE_CREATE ||| MODE_PARENTS }

/-- The walk that follows the creation of the parent. -/
def create_again (o : Outcome path_t) (n : Nat) (p : path_t) (pathname : pathname_t) : Outcome path_t :=
  match o.result with
  | .error _ => o
  | .ok _ =>
    match path_walk_parent_and_child o.s n p pathname with
    | .error e => { o with result := .error (.errno e) }
    | .ok f =>
      let c := create_found f pathname.mode
      { c with paths := o.paths ++ c.paths }

/-- The fuel is the length of the path: a parent's path is shorter. -/
def vfs_create (n : Nat) (p : path_t) : Nat → System → pathname_t → Outcome path_t
  | 0, s, _ => fails s .ENOENT
  | fuel + 1, s, pathname =>
    match path_walk_parent_and_child s n p pathname with
    | .ok f => create_found f pathname.mode
    | .error e =>
      match missing_parent pathname e with
      | .error e => fails s e
      | .ok parent => create_again (vfs_create n p fuel s parent) n p pathname

def vfs_open_lookup (s : System) (n : Nat) (p : path_t) (pathname : pathname_t) : Outcome path_t :=
  if has pathname.mode MODE_CREATE then vfs_create n p (pathname.string.length + 1) s pathname
  else
    match path_walk s n p pathname with
    | .error e => fails s e
    | .ok c => { s := c.s, result := c.path.elim (.error .fault) .ok, paths := c.path.toList }

def file_new (s : System) (p : path_t) (mode : mode_t) : Except errno_t file_t :=
  match mode_check mode (s.mount p.mount).mode, (s.store.dentry p.dentry).vnode with
  | .error e, _ => .error e
  | .ok _, none => .error .ENOENT
  | .ok mode, some v => .ok { path := p, mode := mode, vnode := v, pos := 0 }

/-- What `MODE_TRUNCATE` does to the file that was opened. -/
def open_truncate (s : Store) (mode : mode_t) (file : file_t) : Store :=
  if has mode MODE_TRUNCATE && (s.vnode file.vnode).type == .VREG then vnode_truncate s file.vnode else s

/-- `vfs_openat` from the path `p`, which is that of a file or the working directory. -/
def vfs_openat (s : System) (n : Nat) (p : path_t) (pathname : pathname_t) : Outcome file_t :=
  let o := vfs_open_lookup s n p pathname
  match o.result with
  | .error e => { s := o.s, result := .error e, paths := o.paths }
  | .ok q =>
    match file_new o.s q pathname.mode with
    | .error e => { s := o.s, result := .error (.errno e), paths := o.paths }
    | .ok file =>
      { s := { o.s with store := open_truncate o.s.store pathname.mode file }, result := .ok file, paths := o.paths }

/-! ## Write, link and symlink -/

/-- The file has its new position also when the write fails. -/
def vfs_write (s : System) (file : file_t) (buffer : List Char) : file_t × Outcome Unit :=
  let v := s.store.vnode file.vnode
  if v.type = .VDIR then (file, { fails s .EISDIR with paths := [file.path] })
  else if !v.tmpfs then (file, { fails s .EINVAL with paths := [file.path] })
  else
    let file := if has file.mode MODE_APPEND then { file with pos := v.data.length } else file
    if !has file.mode MODE_WRITE then (file, { fails s .EBADF with paths := [file.path] })
    else
      let w := tmpfs_write v.data buffer file.pos
      ({ file with pos := w.2 },
        { s := { s with store := s.store.setData file.vnode w.1 }, result := .ok (), paths := [file.path] })

/-- `vfs_link` once both names are found. It does not ask whether the new one exists. -/
def link_found (old new : Found) : Outcome Unit :=
  let store := new.s.store
  let returns (result : Except Failure Unit) : Outcome Unit :=
    { s := new.s, result := result, paths := [old.child, new.parent] }
  if (store.dentry old.parent.dentry).superblock ≠ (store.dentry new.parent.dentry).superblock then
    returns (.error (.errno .EXDEV))
  else if !store.isPositive old.child.dentry then returns (.error (.errno .ENOENT))
  else if store.hasType old.child.dentry .VDIR then returns (.error (.errno .EISDIR))
  else
    match (store.dentry new.parent.dentry).vnode with
    | none => returns (.error (.errno .ENOENT))
    | some dir =>
      if !(store.vnode dir).tmpfs then returns (.error (.errno .EPERM))
      else if !has (new.s.mount old.child.mount).mode MODE_READ then returns (.error (.errno .EACCES))
      else if !writable new.s new.parent then returns (.error (.errno .EACCES))
      else
        { returns (.ok ()) with s := { new.s with store := tmpfs_link store old.child.dentry new.child.dentry } }

def vfs_link (s : System) (n : Nat) (cwd : path_t) (oldPathname newPathname : pathname_t) : Outcome Unit :=
  match path_walk_parent_and_child s n cwd oldPathname with
  | .error e => fails s e
  | .ok old =>
    match path_walk_parent_and_child old.s n cwd newPathname with
    | .error e => fails old.s e
    | .ok new => link_found old new

def symlink_found (new : Found) (dest : List Char) : Outcome Unit :=
  match (new.s.store.dentry new.parent.dentry).vnode with
  | none => new.returns (.error (.errno .ENOENT))
  | some dir =>
    if new.s.store.isPositive new.child.dentry then new.returns (.error (.errno .EEXIST))
    else if !(new.s.store.vnode dir).tmpfs then new.returns (.error (.errno .EPERM))
    else if !writable new.s new.parent then new.returns (.error (.errno .EACCES))
    else
      match tmpfs_symlink new.s.store new.child.dentry dest with
      | .error e => new.returns (.error e)
      | .ok store => { new.returns (.ok ()) with s := { new.s with store := store } }

def vfs_symlink (s : System) (n : Nat) (cwd : path_t) (oldPathname newPathname : pathname_t) : Outcome Unit :=
  match path_walk_parent_and_child s n cwd newPathname with
  | .error e => fails s e
  | .ok new => symlink_found new oldPathname.string

/-! ## Remove -/

/-- The directory that holds the dentry, under the mount of the path. -/
def above (s : System) (p : path_t) : path_t :=
  { mount := p.mount, dentry := (s.store.dentry p.dentry).parent }

/-- `dir->ops->remove (dir, dentry)`. `missing` is what happens where there is no such
operation. -/
def remove_dentry (s : System) (dir : Option Nat) (p : path_t) (missing : Failure) : Outcome Unit :=
  match dir with
  | none => { s := s, result := .error .fault, paths := [above s p] }
  | some dir =>
    if !(s.store.vnode dir).tmpfs then { s := s, result := .error missing, paths := [above s p] }
    else
      match tmpfs_remove s.store p.dentry with
      | .error e => { s := s, result := .error e, paths := [above s p] }
      | .ok store => { s := { s with store := store }, result := .ok (), paths := [above s p] }

/-- The path of the first child, as the name that is listed for it is walked. -/
def first_child (s : System) (n : Nat) (p : path_t) : Option (Except errno_t Ctx) :=
  (s.store.dentry p.dentry).children.head?.map fun c => path_step s n MODE_NONE p (s.store.dentry c).name

/-- The fuel bounds the entries that are looked at. After each removal the listing starts
again. -/
def vfs_remove_recursive (n : Nat) : Nat → System → path_t → Outcome Unit
  | 0, s, p => { s := s, result := .error .fault, paths := [above s p] }
  | fuel + 1, s, p =>
    let dir := (s.store.dentry (s.store.dentry p.dentry).parent).vnode
    if s.store.isRoot p.dentry then { s := s, result := .error (.errno .EBUSY), paths := [above s p] }
    else if !s.store.hasType p.dentry .VDIR then remove_dentry s dir p .fault
    else
      match first_child s n p with
      | none => remove_dentry s dir p (.errno .EPERM)
      | some (.error e) => { s := s, result := .error (.errno e), paths := [above s p] }
      | some (.ok c) =>
        match c.path with
        | none => { s := c.s, result := .error .fault, paths := [above s p] }
        | some child =>
          let o := vfs_remove_recursive n fuel c.s child
          match o.result with
          | .error _ => { o with paths := above s p :: o.paths }
          | .ok _ =>
            let o' := vfs_remove_recursive n fuel o.s p
            { o' with paths := above s p :: (o.paths ++ o'.paths) }

/-- `vfs_remove` once directory and name are found. -/
def remove_found (n fuel : Nat) (f : Found) (mode : mode_t) : Outcome Unit :=
  let returns (e : errno_t) : Outcome Unit := { fails f.s e with paths := [above f.s f.child] }
  let recursive := has mode MODE_RECURSIVE
  let directory := f.s.store.hasType f.child.dentry .VDIR
  if !f.s.store.isPositive f.child.dentry then returns .ENOENT
  else if !recursive && has mode MODE_DIRECTORY && !directory then returns .ENOTDIR
  else if !recursive && !has mode MODE_DIRECTORY && directory then returns .EISDIR
  else if !writable f.s f.child then returns .EACCES
  else if recursive then vfs_remove_recursive n fuel f.s f.child
  else remove_dentry f.s (f.s.store.dentry f.parent.dentry).vnode f.child (.errno .EPERM)

def vfs_remove (s : System) (n fuel : Nat) (cwd : path_t) (pathname : pathname_t) : Outcome Unit :=
  match path_walk_parent_and_child s n cwd pathname with
  | .error e => fails s e
  | .ok f => remove_found n fuel f pathname.mode

end Patchwork.Vfs
