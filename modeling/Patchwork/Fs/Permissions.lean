import Patchwork.Fs.Vfs
/-!
# Permissions

Processes open files, open files and bind mounts from files they hold, and hand files to
one another with a key. `file_new` and `namespace_bind` check the permissions that are
asked for against those of the mount alone. What a file was opened for does not matter
when it is the start of an `openat` or the source of a bind, so permissions only shrink
if nobody asks for more than the file has.

Each file keeps the process that has opened it and the file that it was opened from, each
mount the file that it was bound from: both are only there to say what is proved.
-/

namespace Patchwork.Permissions

open List Option Function Lib Patchwork.Vfs

/-! ## Mounts that exist -/

/-- The mounts of all namespaces and their parents exist. -/
structure MountsBelow (s : System) : Prop where
  parent : ∀ m < s.mfresh, ∀ p ∈ (s.mount m).parent, p < s.mfresh
  ns : ∀ n, ∀ m ∈ (s.ns n).mounts, m < s.mfresh

/-- The mounts stay as they are. -/
structure SameMounts (s s' : System) : Prop where
  mount : s'.mount = s.mount
  mfresh : s'.mfresh = s.mfresh
  ns : s'.ns = s.ns

variable {s s' s'' : System} {n m fuel : Nat} {p q : path_t} {c : Ctx} {mode : mode_t} {pathname : pathname_t}
  {f : Found}

theorem SameMounts.refl : SameMounts s s := ⟨rfl, rfl, rfl⟩

theorem SameMounts.trans (h : SameMounts s s') (h' : SameMounts s' s'') : SameMounts s s'' :=
  ⟨h'.mount.trans h.mount, h'.mfresh.trans h.mfresh, h'.ns.trans h.ns⟩

theorem MountsBelow.congr (h : MountsBelow s) (hs : SameMounts s s') : MountsBelow s' := by
  constructor
  · rw [hs.mfresh, hs.mount]
    exact h.parent
  · rw [hs.mfresh, hs.ns]
    exact h.ns

theorem mountsBelow_of_inv (h : Inv s) : MountsBelow s := by
  refine ⟨fun m hm p hp => ?_, fun n m hm => h.mounted hm⟩
  cases ht : (s.mount m).target with
  | none => rw [(h.paired m hm).2 ht] at hp; cases hp
  | some t => exact (h.target m hm p t hp ht).1.trans hm

/-- A walk is in a mount that exists. -/
def Reach (c : Ctx) : Prop := MountsBelow c.s ∧ ∀ q ∈ c.path, q.mount < c.s.mfresh

theorem reach_climb (h : MountsBelow s) {k : Nat} (hp : p.mount < s.mfresh) (hc : climb s k p = .ok q) :
    q.mount < s.mfresh := by
  induction k generalizing p with
  | zero => simp [climb] at hc
  | succ k ih =>
    rw [climb] at hc
    split_ifs at hc
    · split at hc
      · next m t hm ht => exact ih (h.parent p.mount hp m hm) hc
      · rwa [← Except.ok.inj hc]
    · rwa [← Except.ok.inj hc]

theorem keeps_reach : Keeps n Reach where
  dotdot c c' hc hs := by
    rw [path_rcu_dotdot] at hs
    split at hs
    · exact absurd hs (by simp)
    · next p hp =>
      obtain ⟨q, hq, rfl⟩ := map_eq_ok.1 hs
      have hlt : q.mount < c.s.mfresh := reach_climb hc.1 (hc.2 p hp) hq
      refine ⟨hc.1, ?_⟩
      rintro _ ⟨⟩
      exact hlt
  lookup c p name store next hc hp _ := by
    have hbelow : MountsBelow { c.s with store := store } := hc.1.congr ⟨rfl, rfl, rfl⟩
    refine ⟨⟨hbelow, hc.2⟩, hbelow, ?_⟩
    rintro _ ⟨⟩
    exact hc.2 p hp
  traverse c hc := by
    refine ⟨hc.1, fun q hq => ?_⟩
    obtain ⟨p, hp, rfl⟩ := map_eq_some_iff.1 hq
    exact traverse_induct (P := fun q => q.mount < c.s.mfresh) (hc.1.ns n) _ (hc.2 p hp)
  root c hc := by
    refine ⟨hc.1, fun q hq => ?_⟩
    obtain ⟨m, hm, rfl⟩ := map_eq_some_iff.1 hq
    exact hc.1.ns n m (mem_mounts.2 (.inl (mem_of_getLast? hm)))

theorem sameMounts_of_walked (h : Walked s s') : SameMounts s s' := ⟨h.mount, h.mfresh, h.ns⟩

/-! ## What an open gives -/

/-- The result is at a mount that exists, and no mount has changed. -/
structure Lands (s : System) (o : Outcome path_t) : Prop where
  same : SameMounts s o.s
  lt : ∀ q, o.result = .ok q → q.mount < s.mfresh

theorem lands_create_found (f : Found) (mode : mode_t) : SameMounts f.s (create_found f mode).s ∧
    ∀ q, (create_found f mode).result = .ok q → q = f.child := by
  rw [create_found]
  split
  · exact ⟨.refl, by simp [Found.returns]⟩
  · split_ifs
    · exact ⟨.refl, by simp [Found.returns]⟩
    · exact ⟨.refl, by simp [Found.returns]⟩
    · exact ⟨.refl, by simp [Found.returns, eq_comm]⟩
    · exact ⟨.refl, by simp [Found.returns]⟩
    · exact ⟨⟨rfl, rfl, rfl⟩, by simp [Found.returns, eq_comm]⟩

theorem lands_found (mode : mode_t) (h : MountsBelow s) (hp : p.mount < s.mfresh)
    (hf : path_walk_parent_and_child s n p pathname = .ok f) : Lands s (create_found f mode) := by
  have hstart : Reach { s := s, path := some p } := ⟨h, by rintro _ ⟨⟩; exact hp⟩
  have hwalked : Walked s f.s := keeps_walked.found (I := fun c => Walked s c.s) .refl hf
  have hreach : Reach { s := f.s, path := some f.child } := keeps_reach.found hstart hf
  obtain ⟨hsame, hres⟩ := lands_create_found f mode
  refine ⟨(sameMounts_of_walked hwalked).trans hsame, fun q hq => ?_⟩
  rw [hres q hq, ← hwalked.mfresh]
  exact hreach.2 _ rfl

theorem lands_create (h : MountsBelow s) (hp : p.mount < s.mfresh) : Lands s (vfs_create n p fuel s pathname) := by
  induction fuel generalizing pathname with
  | zero => exact ⟨.refl, by simp [vfs_create, fails]⟩
  | succ fuel ih =>
    rw [vfs_create]
    split
    · next f hf => exact lands_found _ h hp hf
    · next e _ =>
      cases hparent : missing_parent pathname e with
      | error e => exact ⟨.refl, by simp [fails]⟩
      | ok parent =>
        have hfirst : Lands s (vfs_create n p fuel s parent) := ih
        dsimp only
        rw [create_again]
        split
        · next e he => exact ⟨hfirst.same, by simp [he]⟩
        · split
          · exact ⟨hfirst.same, by simp⟩
          · next f hf =>
            have hsecond := lands_found pathname.mode (h.congr hfirst.same) (hfirst.same.mfresh ▸ hp) hf
            exact ⟨hfirst.same.trans hsecond.same, fun q hq => hfirst.same.mfresh ▸ hsecond.lt q hq⟩

theorem lands_lookup (h : MountsBelow s) (hp : p.mount < s.mfresh) : Lands s (vfs_open_lookup s n p pathname) := by
  have hstart : Reach { s := s, path := some p } := ⟨h, by rintro _ ⟨⟩; exact hp⟩
  rw [vfs_open_lookup]
  split_ifs
  · exact lands_create h hp
  · split
    · exact ⟨.refl, by simp [fails]⟩
    · next c hc =>
      have hwalked : Walked s c.s := keeps_walked.walk .refl hc
      refine ⟨sameMounts_of_walked hwalked, fun q hq => ?_⟩
      cases hpath : c.path with
      | none => simp [hpath] at hq
      | some r =>
        obtain rfl : r = q := by simpa [hpath] using hq
        rw [← hwalked.mfresh]
        exact (keeps_reach.walk hstart hc).2 r hpath

/-- The permissions that `mode_check` gives. -/
def granted (mode maxPerms : mode_t) : mode_t := if mode &&& MODE_ALL_PERMS = MODE_NONE then maxPerms else mode

theorem within_granted {mode' maxPerms b : mode_t} (h : mode_check mode maxPerms = .ok mode')
    (hb : Within (granted mode maxPerms) b) : Within mode' b := by
  rw [mode_check] at h
  rw [granted] at hb
  split_ifs at h with hacc hnone
  · obtain rfl := Except.ok.inj h
    rw [if_pos hnone] at hb
    exact hb.added hnone
  · obtain rfl := Except.ok.inj h
    rwa [if_neg hnone] at hb

/-- A file that an open has given. -/
structure Opened (s : System) (n : Nat) (p : path_t) (pathname : pathname_t) (file : file_t) : Prop where
  found : (vfs_open_lookup s n p pathname).result = .ok file.path
  lt : file.path.mount < s.mfresh
  checked : mode_check pathname.mode (s.mount file.path.mount).mode = .ok file.mode

theorem openat_spec (n : Nat) (pathname : pathname_t) (h : MountsBelow s) (hp : p.mount < s.mfresh) :
    SameMounts s (vfs_openat s n p pathname).s ∧
      ∀ file, (vfs_openat s n p pathname).result = .ok file → Opened s n p pathname file := by
  have hlands : Lands s (vfs_open_lookup s n p pathname) := lands_lookup h hp
  rw [vfs_openat]
  split
  · exact ⟨hlands.same, by simp⟩
  · next q hq =>
    split
    · exact ⟨hlands.same, by simp⟩
    · next file hfile =>
      refine ⟨⟨hlands.same.mount, hlands.same.mfresh, hlands.same.ns⟩, ?_⟩
      rintro _ ⟨⟩
      rw [file_new] at hfile
      split at hfile
      · exact absurd hfile (by simp)
      · exact absurd hfile (by simp)
      · next mode v hmode _ =>
        obtain rfl := Except.ok.inj hfile
        rw [hlands.same.mount] at hmode
        exact ⟨hq, hlands.lt q hq, hmode⟩

/-! ## Processes and their files -/

/-- How a process got a file from the file system: by its path, or from another file. -/
inductive Origin where
  | opened (p : Nat)
  | openedAt (p i : Nat)
deriving DecidableEq

structure Handle where
  file : file_t
  origin : Origin

structure Session where
  s : System
  /-- All files, in the order in which they were made. -/
  files : List Handle
  /-- The file tables of the processes. -/
  held : Nat → List Nat
  keys : List (Nat × Nat)
  /-- The files that a process was given with a key. -/
  received : Nat → List Nat
  /-- The process that bound a mount, and the file it is bound from. -/
  bound : Nat → Option (Nat × Nat)

def start (s : System) : Session :=
  { s := s, files := [], held := fun _ => [], keys := [], received := fun _ => [], bound := fun _ => none }

/-- `n` is the namespace of the process `p`, and `cwd` its working directory. -/
inductive Op where
  | openFile (p n : Nat) (cwd : path_t) (pathname : pathname_t)
  | openat (p n i : Nat) (pathname : pathname_t)
  | bind (p n i : Nat) (cwd : path_t) (mountname : pathname_t)
  | share (p i key : Nat)
  | claim (p key : Nat)

/-- The file of an open is added to the file table. -/
def Session.add (x : Session) (p : Nat) (origin : Origin) (o : Outcome file_t) : Session :=
  match o.result with
  | .error _ => { x with s := o.s }
  | .ok file =>
    { x with
      s := o.s
      files := x.files ++ [{ file := file, origin := origin }]
      held := update x.held p (x.files.length :: x.held p) }

/-- A bind has given the system `s`, with a new mount unless it has failed. -/
def Session.setMounts (x : Session) (p i : Nat) (s : System) : Session :=
  if x.s.mfresh < s.mfresh then { x with s := s, bound := update x.bound x.s.mfresh (some (p, i)) }
  else { x with s := s }

def step (x : Session) : Op → Option Session
  | .openFile p n cwd pathname =>
    if cwd.mount < x.s.mfresh then some (x.add p (.opened p) (vfs_openat x.s n cwd pathname)) else none
  | .openat p n i pathname =>
    if i ∈ x.held p then
      x.files[i]?.map fun f => x.add p (.openedAt p i) (vfs_openat x.s n f.file.path pathname)
    else none
  | .bind p n i cwd mountname =>
    if i ∈ x.held p ∧ cwd.mount < x.s.mfresh then
      x.files[i]?.map fun f =>
        match path_walk x.s n cwd mountname with
        | .error _ => x
        | .ok c => x.setMounts p i (namespace_bind c.s n c.path f.file.path mountname.mode)
    else none
  | .share p i key => if i ∈ x.held p ∧ ∀ e ∈ x.keys, e.1 ≠ key then some { x with keys := (key, i) :: x.keys } else none
  | .claim p key =>
    (x.keys.find? fun e => e.1 == key).map fun e =>
      { x with
        keys := x.keys.erase e
        held := update x.held p (e.2 :: x.held p)
        received := update x.received p (e.2 :: x.received p) }

/-- Nobody asks an `openat` or a bind for permissions that the file does not have. Who asks
for none gets all those of the mount. -/
def Covered (x : Session) : Op → Prop
  | .openat _ n i pathname => ∀ f ∈ x.files[i]?, ∀ q ∈ (vfs_open_lookup x.s n f.file.path pathname).result.toOption,
    Within (granted pathname.mode (x.s.mount q.mount).mode) f.file.mode
  | .bind _ _ i _ mountname =>
    ∀ f ∈ x.files[i]?, Within (granted mountname.mode (x.s.mount f.file.path.mount).mode) f.file.mode
  | _ => True

instance (x : Session) : (a : Op) → Decidable (Covered x a)
  | .openFile _ _ _ _ => .isTrue trivial
  | .openat _ n i pathname => inferInstanceAs (Decidable (∀ f ∈ x.files[i]?,
    ∀ q ∈ (vfs_open_lookup x.s n f.file.path pathname).result.toOption, _))
  | .bind _ _ i _ _ => inferInstanceAs (Decidable (∀ f ∈ x.files[i]?, _))
  | .share _ _ _ => .isTrue trivial
  | .claim _ _ => .isTrue trivial

/-- The files that a process was given lack `MODE_WRITE`, and so do the mounts that it has
opened files in by their path, other than those that it has bound itself. -/
structure GivenReadOnly (x : Session) (p : Nat) : Prop where
  files : ∀ i ∈ x.received p, ∀ f, x.files[i]? = some f → has f.file.mode MODE_WRITE = false
  mounts : ∀ f ∈ x.files, f.origin = .opened p → (∀ i, x.bound f.file.path.mount ≠ some (p, i)) →
    has (x.s.mount f.file.path.mount).mode MODE_WRITE = false

structure Right (x : Session) : Prop where
  mounted : ∀ f ∈ x.files, Within f.file.mode (x.s.mount f.file.path.mount).mode
  opened : ∀ f ∈ x.files, ∀ p i, f.origin = .openedAt p i →
    ∃ g, x.files[i]? = some g ∧ Within f.file.mode g.file.mode
  bound : ∀ m p i, x.bound m = some (p, i) → ∃ g, x.files[i]? = some g ∧ Within (x.s.mount m).mode g.file.mode
  sandbox : ∀ p, GivenReadOnly x p → ∀ i ∈ x.held p, ∀ f, x.files[i]? = some f → has f.file.mode MODE_WRITE = false

/-! ## Where a file comes from -/

/-- The process was given the file, or has opened it. -/
def Owns (x : Session) (p i : Nat) : Prop :=
  i ∈ x.received p ∨ ∃ f, x.files[i]? = some f ∧ (f.origin = .opened p ∨ ∃ k, f.origin = .openedAt p k)

structure Traced (x : Session) : Prop where
  below : MountsBelow x.s
  mounted : ∀ f ∈ x.files, Within f.file.mode (x.s.mount f.file.path.mount).mode
  lt : ∀ f ∈ x.files, f.file.path.mount < x.s.mfresh
  opened : ∀ j f, x.files[j]? = some f → ∀ p i, f.origin = .openedAt p i →
    i < j ∧ Owns x p i ∧ ∃ g, x.files[i]? = some g ∧ Within f.file.mode g.file.mode
  bound : ∀ m p i, x.bound m = some (p, i) → m < x.s.mfresh ∧ Owns x p i ∧
    ∃ g, x.files[i]? = some g ∧ Within (x.s.mount m).mode g.file.mode
  /-- A file in a mount is younger than the one that the mount is bound from. -/
  younger : ∀ j f, x.files[j]? = some f → ∀ p i, x.bound f.file.path.mount = some (p, i) → i < j
  held : ∀ p, ∀ i ∈ x.held p, Owns x p i

variable {x x' : Session} {i j k pid key : Nat} {a : Op}

/-- A file without `MODE_WRITE` is all that comes of files and mounts without it. -/
theorem Traced.readOnly (h : Traced x) (hg : GivenReadOnly x pid) (howns : Owns x pid i) {g : Handle}
    (hf : x.files[i]? = some g) : has g.file.mode MODE_WRITE = false := by
  -- a file is made from older ones only
  induction i using Nat.strong_induction_on generalizing g with
  | _ i ih =>
    have hmem := mem_of_getElem? hf
    rcases howns with hrec | ⟨g', hg', hopened | ⟨k, hopened⟩⟩
    · exact hg.files i hrec g hf
    · obtain rfl := Option.some.inj (hf.symm.trans hg')
      apply (h.mounted g hmem).readOnly
      by_cases hbound : ∃ k, x.bound g.file.path.mount = some (pid, k)
      · obtain ⟨k, hk⟩ := hbound
        obtain ⟨_, hown, g₀, hg₀, hwithin⟩ := h.bound _ _ _ hk
        exact hwithin.readOnly (ih k (h.younger i g hf _ _ hk) hown hg₀)
      · exact hg.mounts g hmem hopened fun k hk => hbound ⟨k, hk⟩
    · obtain rfl := Option.some.inj (hf.symm.trans hg')
      obtain ⟨hlt, hown, g₀, hg₀, hwithin⟩ := h.opened i g hf _ _ hopened
      exact hwithin.readOnly (ih k hlt hown hg₀)

theorem Traced.right (h : Traced x) : Right x where
  mounted := h.mounted
  opened f hf p i ho := by
    obtain ⟨j, hj⟩ := getElem?_of_mem hf
    exact (h.opened j f hj p i ho).2.2
  bound m p i hb := (h.bound m p i hb).2.2
  sandbox p hg i hi f hf := h.readOnly hg (h.held p i hi) hf

theorem traced_start (h : MountsBelow s) : Traced (start s) where
  below := h
  mounted f hf := by simp [start] at hf
  lt f hf := by simp [start] at hf
  opened j f hf := by simp [start] at hf
  bound m p i hb := by simp [start] at hb
  younger j f hf := by simp [start] at hf
  held p i hi := by simp [start] at hi

/-! ## A new file -/

theorem getElem?_push {α : Type} {l : List α} {y z : α} (h : l[i]? = some y) : (l ++ [z])[i]? = some y := by
  rw [List.getElem?_append_left (List.getElem?_eq_some_iff.1 h).1]
  exact h

theorem of_getElem?_push {α : Type} {l : List α} {y z : α} (h : (l ++ [z])[i]? = some y) :
    l[i]? = some y ∨ (i = l.length ∧ y = z) := by
  rw [getElem?_append] at h
  split_ifs at h with hlt
  · exact .inl h
  · rw [getElem?_singleton] at h
    split_ifs at h with hzero
    exact .inr ⟨by omega, (Option.some.inj h).symm⟩

/-- The files of `x` are files of `x'`, and so are those that were given away. -/
structure Grown (x x' : Session) : Prop where
  files : ∀ (i : Nat) f, x.files[i]? = some f → x'.files[i]? = some f
  received : ∀ p, ∀ i ∈ x.received p, i ∈ x'.received p

theorem Grown.owns (hg : Grown x x') (h : Owns x pid i) : Owns x' pid i := by
  rcases h with hrec | ⟨f, hf, ho⟩
  · exact .inl (hg.received pid i hrec)
  · exact .inr ⟨f, hg.files i f hf, ho⟩

theorem Grown.within (hg : Grown x x') (h : Owns x pid i ∧ ∃ f, x.files[i]? = some f ∧ Within mode f.file.mode) :
    Owns x' pid i ∧ ∃ f, x'.files[i]? = some f ∧ Within mode f.file.mode := by
  obtain ⟨hown, f, hf, hwithin⟩ := h
  exact ⟨hg.owns hown, f, hg.files i f hf, hwithin⟩

theorem Grown.held (hg : Grown x x') (h : Traced x) (hi : Owns x' pid i) {p : Nat}
    (hj : j ∈ update x.held pid (i :: x.held pid) p) : Owns x' p j := by
  by_cases hp : p = pid
  · subst hp
    rw [update_self] at hj
    rcases mem_cons.1 hj with rfl | hj
    · exact hi
    · exact hg.owns (h.held p j hj)
  · rw [update_of_ne hp] at hj
    exact hg.owns (h.held p j hj)

theorem Traced.congr (h : Traced x) (hs : SameMounts x.s s') : Traced { x with s := s' } where
  below := h.below.congr hs
  mounted f hf := by
    rw [hs.mount]
    exact h.mounted f hf
  lt f hf := by
    rw [hs.mfresh]
    exact h.lt f hf
  opened := h.opened
  bound m p i hb := by
    rw [hs.mount, hs.mfresh]
    exact h.bound m p i hb
  younger := h.younger
  held := h.held

theorem Traced.push (h : Traced x) {g : Handle} (hw : Within g.file.mode (x.s.mount g.file.path.mount).mode)
    (hlt : g.file.path.mount < x.s.mfresh)
    (ho : g.origin = .opened pid ∨ ∃ i, g.origin = .openedAt pid i ∧ Owns x pid i ∧
      ∃ f, x.files[i]? = some f ∧ Within g.file.mode f.file.mode) :
    Traced { x with
      files := x.files ++ [g], held := update x.held pid (x.files.length :: x.held pid) } := by
  have hgrown : Grown x { x with files := x.files ++ [g] } := ⟨fun i f hf => getElem?_push hf, fun _ _ hi => hi⟩
  have hnew : Owns { x with files := x.files ++ [g] } pid x.files.length := by
    refine .inr ⟨g, getElem?_concat_length, ?_⟩
    rcases ho with ho | ⟨i, ho, _⟩
    · exact .inl ho
    · exact .inr ⟨i, ho⟩
  constructor
  · exact h.below
  · intro f hf
    rcases mem_append.1 hf with hf | hf
    · exact h.mounted f hf
    · obtain rfl := mem_singleton.1 hf
      exact hw
  · intro f hf
    rcases mem_append.1 hf with hf | hf
    · exact h.lt f hf
    · obtain rfl := mem_singleton.1 hf
      exact hlt
  · intro j f hf p i hi
    rcases of_getElem?_push hf with hold | ⟨rfl, rfl⟩
    · obtain ⟨hij, hfrom⟩ := h.opened j f hold p i hi
      exact ⟨hij, hgrown.within hfrom⟩
    · rcases ho with ho | ⟨i', ho, hown, f₀, hf₀, hwithin⟩
      · rw [ho] at hi
        cases hi
      · rw [ho] at hi
        obtain ⟨rfl, rfl⟩ := Origin.openedAt.inj hi
        exact ⟨(List.getElem?_eq_some_iff.1 hf₀).1, hgrown.within ⟨hown, f₀, hf₀, hwithin⟩⟩
  · intro m p i hb
    obtain ⟨hm, hfrom⟩ := h.bound m p i hb
    exact ⟨hm, hgrown.within hfrom⟩
  · intro j f hf p i hb
    rcases of_getElem?_push hf with hold | ⟨rfl, rfl⟩
    · exact h.younger j f hold p i hb
    · obtain ⟨_, _, f₀, hf₀, _⟩ := h.bound _ p i hb
      exact (List.getElem?_eq_some_iff.1 hf₀).1
  · intro p i hi
    exact hgrown.held h hnew hi

theorem traced_add (h : Traced x) (hp : p.mount < x.s.mfresh) {origin : Origin}
    (ho : origin = .opened pid ∨ ∃ i, origin = .openedAt pid i ∧ Owns x pid i ∧ ∃ f, x.files[i]? = some f ∧
      ∀ file, Opened x.s n p pathname file → Within file.mode f.file.mode) :
    Traced (x.add pid origin (vfs_openat x.s n p pathname)) := by
  obtain ⟨hsame, hopened⟩ := openat_spec n pathname h.below hp
  have hsys := h.congr hsame
  rw [Session.add]
  split
  · exact hsys
  · next file hfile =>
    have hfile := hopened file hfile
    refine hsys.push (g := { file := file, origin := origin }) ?_ ?_ ?_
    · simp only [hsame.mount]
      exact within_of_check hfile.checked
    · simp only [hsame.mfresh]
      exact hfile.lt
    · rcases ho with ho | ⟨i, ho, hown, f, hf, hwithin⟩
      · exact .inl ho
      · exact .inr ⟨i, ho, hown, f, hf, hwithin file hfile⟩

/-! ## A new mount -/

/-- What a bind does that does not fail. -/
structure Binds (s : System) (source : path_t) (mode : mode_t) (s' : System) : Prop where
  below : MountsBelow s'
  mfresh : s'.mfresh = s.mfresh + 1
  old : ∀ m < s.mfresh, s'.mount m = s.mount m
  checked : mode_check mode (s.mount source.mount).mode = .ok (s'.mount s.mfresh).mode

theorem bind_spec (n : Nat) (source : path_t) (mode : mode_t) (h : MountsBelow s) {target : Option path_t}
    (ht : ∀ t ∈ target, t.mount < s.mfresh) :
    namespace_bind s n target source mode = s ∨ Binds s source mode (namespace_bind s n target source mode) := by
  rw [namespace_bind]
  split
  · exact .inl rfl
  · next mode' hmode =>
    rw [namespace_attach]
    split_ifs
    · dsimp only
      split_ifs
      · right
        have hadds := addsAll_add (s := mount_new s source.dentry target mode') (n := n) (m := s.mfresh) s.nfresh
        have hself : (mount_new s source.dentry target mode').mount s.mfresh =
            { source := source.dentry, target := target.map path_t.dentry, parent := target.map path_t.mount
              mode := mode' } := update_self ..
        have hold : ∀ m < s.mfresh, (mount_new s source.dentry target mode').mount m = s.mount m :=
          fun m hm => update_of_ne hm.ne ..
        have hfresh : (mount_new s source.dentry target mode').mfresh = s.mfresh + 1 := rfl
        refine ⟨⟨fun m hm p hp => ?_, fun k m hm => ?_⟩, hadds.mfresh, ?_, ?_⟩
        · rw [hadds.mfresh, hfresh] at hm ⊢
          rw [hadds.mount] at hp
          rcases Nat.lt_succ_iff_lt_or_eq.1 hm with hm | rfl
          · rw [hold m hm] at hp
            exact (h.parent m hm p hp).trans (Nat.lt_succ_self _)
          · rw [hself] at hp
            obtain ⟨t, htt, rfl⟩ := map_eq_some_iff.1 hp
            exact (ht t htt).trans (Nat.lt_succ_self _)
        · rw [hadds.mfresh, hfresh]
          have hns : (mount_new s source.dentry target mode').ns = s.ns := rfl
          have hadd := hadds.ns k
          rcases mem_mounts.1 hm with hroot | ⟨e, he, hme⟩
          · rcases hadd.root m hroot with hin | ⟨rfl, _⟩
            · exact (h.ns k m (mem_mounts.2 (.inl hin))).trans (Nat.lt_succ_self _)
            · exact Nat.lt_succ_self _
          · rcases hadd.mountMap e he m hme with ⟨e', he', _, hin⟩ | ⟨rfl, _⟩
            · exact (h.ns k m (mem_mounts.2 (.inr ⟨e', he', hin⟩))).trans (Nat.lt_succ_self _)
            · exact Nat.lt_succ_self _
        · intro m hm
          rw [hadds.mount]
          exact hold m hm
        · rw [hadds.mount, hself]
          exact hmode
      · exact .inl rfl
    · exact .inl rfl

theorem traced_bind (h : Traced x) (hs : SameMounts x.s s) {g : Handle} (hg : x.files[i]? = some g)
    (howns : Owns x pid i) (hb : Binds s g.file.path mode s')
    (hc : Within (granted mode (x.s.mount g.file.path.mount).mode) g.file.mode) : Traced (x.setMounts pid i s') := by
  have hfresh : s'.mfresh = x.s.mfresh + 1 := by rw [hb.mfresh, hs.mfresh]
  have hold : ∀ m < x.s.mfresh, s'.mount m = x.s.mount m := fun m hm => by
    rw [hb.old m (hs.mfresh ▸ hm), hs.mount]
  have hnew : ∀ m < x.s.mfresh, update x.bound x.s.mfresh (some (pid, i)) m = x.bound m :=
    fun m hm => update_of_ne hm.ne ..
  rw [Session.setMounts, if_pos (by omega)]
  constructor
  · exact hb.below
  · intro f hf
    rw [hold _ (h.lt f hf)]
    exact h.mounted f hf
  · intro f hf
    rw [hfresh]
    exact (h.lt f hf).trans (Nat.lt_succ_self _)
  · exact h.opened
  · intro m p k hbm
    dsimp only at hbm
    rw [hfresh]
    by_cases hm : m = x.s.mfresh
    · subst hm
      rw [update_self] at hbm
      obtain ⟨rfl, rfl⟩ := Prod.mk.inj (Option.some.inj hbm)
      refine ⟨Nat.lt_succ_self _, howns, g, hg, ?_⟩
      have hcheck := hb.checked
      rw [hs.mount, hs.mfresh] at hcheck
      exact within_granted hcheck hc
    · rw [update_of_ne hm] at hbm
      obtain ⟨hlt, hown, f₀, hf₀, hwithin⟩ := h.bound m p k hbm
      rw [hold m hlt]
      exact ⟨hlt.trans (Nat.lt_succ_self _), hown, f₀, hf₀, hwithin⟩
  · intro j f hf p k hbm
    dsimp only at hbm
    rw [hnew _ (h.lt f (mem_of_getElem? hf))] at hbm
    exact h.younger j f hf p k hbm
  · exact h.held

/-! ## Runs -/

theorem traced_claim (h : Traced x) {keys : List (Nat × Nat)} : Traced { x with
    keys := keys
    held := update x.held pid (i :: x.held pid)
    received := update x.received pid (i :: x.received pid) } := by
  have hgrown : Grown x { x with received := update x.received pid (i :: x.received pid) } := by
    refine ⟨fun _ _ hf => hf, fun p k hk => ?_⟩
    dsimp only
    by_cases hp : p = pid
    · subst hp
      rw [update_self]
      exact mem_cons_of_mem _ hk
    · rwa [update_of_ne hp]
  refine { h with opened := ?_, bound := ?_, held := ?_ }
  · intro j f hf p k hk
    obtain ⟨hlt, hfrom⟩ := h.opened j f hf p k hk
    exact ⟨hlt, hgrown.within hfrom⟩
  · intro m p k hb
    obtain ⟨hlt, hfrom⟩ := h.bound m p k hb
    exact ⟨hlt, hgrown.within hfrom⟩
  · intro p k hk
    refine hgrown.held h (.inl ?_) hk
    dsimp only
    rw [update_self]
    exact mem_cons_self

theorem traced_step (h : Traced x) (hc : Covered x a) (hs : step x a = some x') : Traced x' := by
  cases a with
  | openFile p n cwd pathname =>
    rw [step] at hs
    split_ifs at hs with hcwd
    cases hs
    exact traced_add h hcwd (.inl rfl)
  | openat p n i pathname =>
    rw [step] at hs
    split_ifs at hs with hheld
    obtain ⟨f, hf, rfl⟩ := map_eq_some_iff.1 hs
    refine traced_add h (h.lt f (mem_of_getElem? hf)) (.inr ⟨i, rfl, h.held p i hheld, f, hf, fun file hfile => ?_⟩)
    exact within_granted hfile.checked (hc f hf _ (toOption_eq_some.2 hfile.found))
  | bind p n i cwd mountname =>
    rw [step] at hs
    split_ifs at hs with hguard
    obtain ⟨f, hf, rfl⟩ := map_eq_some_iff.1 hs
    split
    · exact h
    · next c hwalk =>
      have hwalked : Walked x.s c.s := keeps_walked.walk .refl hwalk
      have hsame := sameMounts_of_walked hwalked
      have hreach : Reach c := keeps_reach.walk ⟨h.below, by rintro _ ⟨⟩; exact hguard.2⟩ hwalk
      rcases bind_spec n f.file.path mountname.mode hreach.1 hreach.2 with hsys | hb
      · rw [hsys, Session.setMounts, if_neg (by rw [hsame.mfresh]; exact Nat.lt_irrefl _)]
        exact h.congr hsame
      · exact traced_bind h hsame hf (h.held p i hguard.1) hb (hc f hf)
  | share p i key =>
    rw [step] at hs
    split_ifs at hs
    cases hs
    exact { h with }
  | claim p key =>
    obtain ⟨e, _, rfl⟩ := map_eq_some_iff.1 hs
    exact traced_claim h

/-- Along every run in which nobody asks an `openat` or a bind for permissions that the file
does not have, permissions only shrink. -/
theorem permissions_shrink (s : System) (hs : MountsBelow s) (ops : List Op) (h : Along step Covered (start s) ops) :
    Always step Right (start s) ops :=
  (h.always (fun _ _ _ ht hc hstep => traced_step ht hc hstep) (traced_start hs)).mono fun _ ht => ht.right

/-- The file system of `homes` is mounted as the root, to be read and written. -/
def homesMounted : List Action := [.mount 0 none 0 (MODE_READ ||| MODE_WRITE)]

/-- A process opens `/home` to read it, and hands the file to another process. -/
def handHome : List Op :=
  [.openFile 0 0 ⟨0, 0⟩ ⟨"/home".toList, MODE_READ⟩, .share 0 0 7, .claim 1 7]

/-- The other process opens a directory in it and binds it, to read both. -/
def readHome : List Op :=
  handHome ++ [.openat 1 0 0 ⟨"user".toList, MODE_READ⟩, .bind 1 0 0 ⟨0, 0⟩ ⟨"/home/user".toList, MODE_READ⟩]

theorem readHome_shrinks : ∃ s, run Vfs.step (init homes) homesMounted = some s ∧
    (run step (start s) readHome).map (fun x => (x.held 1, x.s.mfresh)) = some ([1, 0], 2) ∧
    Always step Right (start s) readHome := by
  obtain ⟨s, hs, hcovered, hend⟩ := run_to Vfs.step (init homes) homesMounted (fun s =>
    Along step Covered (start s) readHome ∧
    (run step (start s) readHome).map (fun x => (x.held 1, x.s.mfresh)) = some ([1, 0], 2)) (by decide +kernel)
  have hinv : Inv s := (always_of_step (fun _ _ _ hi hstep => inv_step hi hstep) (inv_init homes) homesMounted).last hs
  exact ⟨s, hs, hend, permissions_shrink s (mountsBelow_of_inv hinv) readHome hcovered⟩

/-- The other process creates a file in it, to write it. -/
def writeHome : List Op := handHome ++ [.openat 1 0 0 ⟨"note".toList, MODE_CREATE ||| MODE_WRITE⟩]

/-- The new file is writable, although the process was only given a file to read. -/
theorem writeHome_grows : ¬ ∀ s, MountsBelow s → ∀ ops, Always step Right (start s) ops := by
  intro h
  obtain ⟨s, hs, x, hx, f, hf, g, hg, horigin, hgrows⟩ := run_to Vfs.step (init homes) homesMounted (fun s =>
    ∃ x ∈ run step (start s) writeHome, ∃ f ∈ x.files[0]?, ∃ g ∈ x.files[1]?,
      g.origin = .openedAt 1 0 ∧ ¬ Within g.file.mode f.file.mode) (by decide +kernel)
  have hinv : Inv s := (always_of_step (fun _ _ _ hi hstep => inv_step hi hstep) (inv_init homes) homesMounted).last hs
  have hright := (h s (mountsBelow_of_inv hinv) writeHome).last hx
  obtain ⟨f', hf', hwithin⟩ := hright.opened g (mem_of_getElem? hg) 1 0 horigin
  cases hf.symm.trans hf'
  exact hgrows hwithin

end Patchwork.Permissions
