import Patchwork.Fs.Vfs
/-!
# Mounts without `MODE_WRITE`

Calls that only reach paths through mounts without `MODE_WRITE` change neither names nor
data, unless an open with `MODE_TRUNCATE` finds a regular file: `file_new` checks the
permissions that were asked for, and truncating is none of them.

A removal asks for `MODE_WRITE` once, at the path it starts with. It leaves the directories
as they are that only other mounts show, if no mount point and no symbolic link below that
path leads the recursion elsewhere.
-/

namespace Patchwork.Vfs

open List Lib

/-! ## Names and data -/

/-- The same names stand for the same vnodes, and those have the same content. -/
structure Unchanged (s s' : Store) : Prop where
  entry : ∀ d name, s'.entry d name = s.entry d name
  vnode : s'.vnode = s.vnode

structure Kept (s s' : System) : Prop where
  store : Unchanged s.store s'.store
  mount : s'.mount = s.mount

variable {s s' s'' : System} {store store' store'' : Store} {n fuel : Nat} {p q : path_t} {mode : mode_t}
  {pathname : pathname_t} {f : Found} {c : Ctx} {paths : List path_t}

theorem Unchanged.refl : Unchanged store store := ⟨fun _ _ => rfl, rfl⟩

theorem Unchanged.trans (h : Unchanged store store') (h' : Unchanged store' store'') : Unchanged store store'' :=
  ⟨fun d name => (h'.entry d name).trans (h.entry d name), h'.vnode.trans h.vnode⟩

theorem Unchanged.symm (h : Unchanged store store') : Unchanged store' store :=
  ⟨fun d name => (h.entry d name).symm, h.vnode.symm⟩

theorem Kept.refl : Kept s s := ⟨.refl, rfl⟩

theorem Kept.trans (h : Kept s s') (h' : Kept s' s'') : Kept s s'' :=
  ⟨h.store.trans h'.store, h'.mount.trans h.mount⟩

theorem Walked.kept (h : Walked s s') : Kept s s' := ⟨⟨h.store.entry, h.store.vnodes⟩, h.mount⟩

/-- No mount of the paths has `MODE_WRITE`. -/
def ReadOnly (s : System) (paths : List path_t) : Prop := ∀ p ∈ paths, writable s p = false

instance (s : System) (paths : List path_t) : Decidable (ReadOnly s paths) :=
  inferInstanceAs (Decidable (∀ p ∈ paths, _))

theorem writable_congr (h : s'.mount = s.mount) : writable s' p = writable s p := by
  rw [writable, writable, h]

theorem ReadOnly.congr (h : ReadOnly s paths) (hm : s'.mount = s.mount) : ReadOnly s' paths :=
  fun p hp => (writable_congr hm).trans (h p hp)

theorem walked_found (h : path_walk_parent_and_child s n p pathname = .ok f) : Walked s f.s :=
  keeps_walked.found (I := fun c => Walked s c.s) .refl h

/-! ## Open -/

theorem create_found_paths : (create_found f mode).paths = [f.parent, f.child] := by
  rw [create_found]
  split
  · rfl
  · split_ifs <;> rfl

theorem create_found_readOnly (h : writable f.s f.parent = false) : (create_found f mode).s = f.s := by
  rw [create_found]
  split
  · rfl
  · simp only [h, Bool.not_false, if_true]
    split_ifs <;> rfl

theorem kept_create_found (hw : Walked s f.s) (h : ReadOnly s (create_found f mode).paths) :
    Kept s (create_found f mode).s := by
  rw [create_found_readOnly]
  · exact hw.kept
  · rw [create_found_paths] at h
    rw [writable_congr hw.mount]
    exact h f.parent mem_cons_self

theorem kept_create (h : ReadOnly s (vfs_create n p fuel s pathname).paths) :
    Kept s (vfs_create n p fuel s pathname).s := by
  induction fuel generalizing pathname with
  | zero => exact .refl
  | succ fuel ih =>
    rw [vfs_create] at h ⊢
    split at h
    · next f hf => exact kept_create_found (walked_found hf) h
    · next e he =>
      cases hparent : missing_parent pathname e with
      | error e => exact .refl
      | ok parent =>
        simp only [hparent] at h
        dsimp only
        -- the parent is created first, then the name is looked for again
        rw [create_again] at h ⊢
        split at h
        · exact ih h
        · split at h
          · exact ih h
          · next f hf =>
            have hkept := ih fun q hq => h q (mem_append_left _ hq)
            refine hkept.trans (kept_create_found (walked_found hf) ?_)
            exact ReadOnly.congr (fun q hq => h q (mem_append_right _ hq)) hkept.mount

theorem kept_lookup (h : ReadOnly s (vfs_open_lookup s n p pathname).paths) :
    Kept s (vfs_open_lookup s n p pathname).s := by
  rw [vfs_open_lookup] at h ⊢
  split_ifs with hcreate
  · rw [if_pos hcreate] at h
    exact kept_create h
  · split
    · exact .refl
    · next c hc => exact Walked.kept (keeps_walked.walk .refl hc)

/-- An open in this mode throws the content of the vnode away. -/
def emptied (v : vnode_t) (mode : mode_t) : Bool :=
  has mode MODE_TRUNCATE && v.type == .VREG && v.tmpfs && !v.data.isEmpty

theorem unchanged_setData {v : Nat} {data : List Char} :
    Unchanged store (store.setData v data) ↔ (store.vnode v).data = data := by
  constructor
  · intro h
    have hv : (store.setData v data).vnode v = { store.vnode v with data := data } := Function.update_self ..
    rw [← h.vnode, hv]
  · intro h
    refine ⟨fun _ _ => rfl, ?_⟩
    rw [Store.setData, ← h]
    exact Function.update_eq_self v store.vnode

variable {file : file_t} {buffer : List Char} {cwd : path_t}

theorem unchanged_truncate :
    Unchanged store (open_truncate store mode file) ↔ emptied (store.vnode file.vnode) mode = false := by
  rw [open_truncate, vnode_truncate, emptied]
  split_ifs with htrunc htmpfs
  · rw [unchanged_setData]
    simp only [htrunc, htmpfs, Bool.and_self, Bool.true_and, Bool.not_eq_false', List.isEmpty_iff]
  · simp [htmpfs, Unchanged.refl]
  · rw [Bool.not_eq_true] at htrunc
    simp [htrunc, Unchanged.refl]

/-- The walk ends at a file that may be opened, and the mode throws its content away. -/
def truncates (s : System) (n : Nat) (p : path_t) (pathname : pathname_t) : Bool :=
  let o := vfs_open_lookup s n p pathname
  match o.result with
  | .error _ => false
  | .ok q =>
    match file_new o.s q pathname.mode with
    | .error _ => false
    | .ok file => emptied (s.store.vnode file.vnode) pathname.mode

theorem within_file_new (h : file_new s p mode = .ok file) : Within file.mode (s.mount file.path.mount).mode := by
  rw [file_new] at h
  split at h
  · exact absurd h (by simp)
  · exact absurd h (by simp)
  · next mode' v hmode _ =>
    obtain rfl := Except.ok.inj h
    exact within_of_check hmode

theorem openat_paths : (vfs_openat s n p pathname).paths = (vfs_open_lookup s n p pathname).paths := by
  rw [vfs_openat]
  split
  · rfl
  · split <;> rfl

/-- What an open does that only reaches mounts without `MODE_WRITE`. -/
theorem openat_readOnly (h : ReadOnly s (vfs_openat s n p pathname).paths) :
    (Kept s (vfs_openat s n p pathname).s ↔ truncates s n p pathname = false) ∧
      (vfs_openat s n p pathname).s.mount = s.mount ∧
      ∀ file, (vfs_openat s n p pathname).result = .ok file → Within file.mode (s.mount file.path.mount).mode := by
  rw [openat_paths] at h
  have hkept := kept_lookup h
  rw [truncates, vfs_openat]
  cases hres : (vfs_open_lookup s n p pathname).result with
  | error e => exact ⟨by simp [hkept], hkept.mount, by simp⟩
  | ok q =>
    dsimp only
    cases hfile : file_new (vfs_open_lookup s n p pathname).s q pathname.mode with
    | error e => exact ⟨by simp [hkept], hkept.mount, by simp⟩
    | ok file =>
      refine ⟨?_, hkept.mount, ?_⟩
      · rw [← hkept.store.vnode, ← unchanged_truncate]
        exact ⟨fun hk => hkept.store.symm.trans hk.store, fun hu => ⟨hkept.store.trans hu, hkept.mount⟩⟩
      · rintro _ ⟨⟩
        have hwithin := within_file_new hfile
        rwa [hkept.mount] at hwithin

/-! ## The other calls -/

theorem write_paths : (vfs_write s file buffer).2.paths = [file.path] := by
  rw [vfs_write]
  dsimp only
  split_ifs <;> rfl

theorem write_file : (vfs_write s file buffer).1.path = file.path ∧ (vfs_write s file buffer).1.mode = file.mode := by
  rw [vfs_write]
  dsimp only
  split_ifs <;> exact ⟨rfl, rfl⟩

theorem kept_write (hf : Within file.mode (s.mount file.path.mount).mode)
    (h : ReadOnly s (vfs_write s file buffer).2.paths) : Kept s (vfs_write s file buffer).2.s := by
  rw [write_paths] at h
  have hno : has file.mode MODE_WRITE = false := hf.readOnly (h file.path mem_cons_self)
  rw [vfs_write]
  dsimp only
  split_ifs with hdir htmpfs happ hwrite hwrite
  · exact .refl
  · exact .refl
  · exact .refl
  · exact absurd hno (by simpa using hwrite)
  · exact .refl
  · exact absurd hno (by simpa using hwrite)

theorem link_found_paths {old new : Found} : (link_found old new).paths = [old.child, new.parent] := by
  rw [link_found]
  cases (new.s.store.dentry new.parent.dentry).vnode <;> dsimp only <;> split_ifs <;> rfl

theorem link_found_readOnly {old new : Found} (h : writable new.s new.parent = false) :
    (link_found old new).s = new.s := by
  rw [link_found]
  simp only [h, Bool.not_false, if_true]
  cases (new.s.store.dentry new.parent.dentry).vnode <;> dsimp only <;> split_ifs <;> rfl

theorem kept_link {old new : pathname_t} (h : ReadOnly s (vfs_link s n cwd old new).paths) :
    Kept s (vfs_link s n cwd old new).s := by
  rw [vfs_link] at h ⊢
  split at h
  · exact .refl
  · next o ho =>
    split at h
    · exact (walked_found ho).kept
    · next f hf =>
      have hw := (walked_found ho).trans (walked_found hf)
      rw [link_found_paths] at h
      rw [link_found_readOnly]
      · exact hw.kept
      · rw [writable_congr hw.mount]
        exact h f.parent (mem_cons_of_mem _ mem_cons_self)

theorem symlink_found_paths {dest : List Char} : (symlink_found f dest).paths = [f.parent, f.child] := by
  rw [symlink_found]
  split
  · rfl
  · split_ifs
    · rfl
    · rfl
    · rfl
    · split <;> rfl

theorem symlink_found_readOnly {dest : List Char} (h : writable f.s f.parent = false) :
    (symlink_found f dest).s = f.s := by
  rw [symlink_found]
  split
  · rfl
  · simp only [h, Bool.not_false, if_true]
    split_ifs <;> rfl

theorem kept_symlink {old new : pathname_t} (h : ReadOnly s (vfs_symlink s n cwd old new).paths) :
    Kept s (vfs_symlink s n cwd old new).s := by
  rw [vfs_symlink] at h ⊢
  split at h
  · exact .refl
  · next f hf =>
    have hw := walked_found hf
    rw [symlink_found_paths] at h
    rw [symlink_found_readOnly]
    · exact hw.kept
    · rw [writable_congr hw.mount]
      exact h f.parent mem_cons_self

/-! ## Removing -/

theorem above_mem_dentry {dir : Option Nat} {missing : Failure} :
    above s p ∈ (remove_dentry s dir p missing).paths := by
  cases dir with
  | none => exact mem_cons_self
  | some dir =>
    rw [remove_dentry]
    split_ifs
    · exact mem_cons_self
    · split <;> exact mem_cons_self

theorem above_mem_recursive : above s p ∈ (vfs_remove_recursive n fuel s p).paths := by
  cases fuel with
  | zero => exact mem_cons_self
  | succ fuel =>
    rw [vfs_remove_recursive]
    dsimp only
    split_ifs
    · exact mem_cons_self
    · exact above_mem_dentry
    · split
      · exact above_mem_dentry
      · exact mem_cons_self
      · split
        · exact mem_cons_self
        · split <;> exact mem_cons_self

theorem kept_remove (h : ReadOnly s (vfs_remove s n fuel cwd pathname).paths) :
    Kept s (vfs_remove s n fuel cwd pathname).s := by
  rw [vfs_remove] at h ⊢
  split at h
  · exact .refl
  · next f hf =>
    have hw := walked_found hf
    have hno : ∀ o : Outcome Unit, ReadOnly s o.paths → above f.s f.child ∈ o.paths → writable f.s f.child = false := by
      intro o ho hmem
      rw [writable_congr hw.mount]
      exact ho (above f.s f.child) hmem
    rw [remove_found] at h ⊢
    split_ifs at h ⊢ with hpos hdir hisdir hwrite hrec
    · exact hw.kept
    · exact hw.kept
    · exact hw.kept
    · exact hw.kept
    · exact absurd (hno _ h above_mem_recursive) (by simpa using hwrite)
    · exact absurd (hno _ h above_mem_dentry) (by simpa using hwrite)

/-! ## Where a removal reaches -/

variable {dir : Option Nat} {missing : Failure} {m t d e : Nat}

theorem remove_dentry_cases (s : System) (dir : Option Nat) (p : path_t) (missing : Failure) :
    (remove_dentry s dir p missing).s = s ∨
      (remove_dentry s dir p missing).s = { s with store := dentry_remove s.store p.dentry } := by
  cases dir with
  | none => exact .inl rfl
  | some dir =>
    rw [remove_dentry]
    split_ifs
    · exact .inl rfl
    · split
      · exact .inl rfl
      · next store hremove =>
        rw [tmpfs_remove] at hremove
        split at hremove
        · exact absurd hremove (by simp)
        · split_ifs at hremove
          obtain rfl := Except.ok.inj hremove
          exact .inr rfl

theorem remove_dentry_vnode : (remove_dentry s dir p missing).s.store.vnode = s.store.vnode := by
  rcases remove_dentry_cases s dir p missing with h | h <;> rw [h]
  rfl

theorem recursive_vnode : (vfs_remove_recursive n fuel s p).s.store.vnode = s.store.vnode := by
  induction fuel generalizing s p with
  | zero => rfl
  | succ fuel ih =>
    rw [vfs_remove_recursive]
    dsimp only
    split_ifs
    · rfl
    · exact remove_dentry_vnode
    · split
      · exact remove_dentry_vnode
      · rfl
      · next c hc =>
        obtain ⟨child, _, hstep⟩ := Option.map_eq_some_iff.1 hc
        have hw : Walked s c.s := keeps_walked.step .refl hstep
        split
        · exact hw.store.vnodes
        · split
          · exact ih.trans hw.store.vnodes
          · exact ih.trans (ih.trans hw.store.vnodes)

theorem remove_vnode : (vfs_remove s n fuel cwd pathname).s.store.vnode = s.store.vnode := by
  rw [vfs_remove]
  split
  · rfl
  · next f hf =>
    refine Eq.trans ?_ (walked_found hf).store.vnodes
    rw [remove_found]
    split_ifs
    · rfl
    · rfl
    · rfl
    · rfl
    · exact recursive_vnode
    · exact remove_dentry_vnode

theorem find_erase {l : List Nat} {P : Nat → Bool} (he : P e = false) : (l.erase e).find? P = l.find? P := by
  induction l with
  | nil => rfl
  | cons x l ih =>
    rw [erase_cons]
    split_ifs with hx
    · rw [find?_cons, show P x = false from beq_iff_eq.1 hx ▸ he]
    · rw [find?_cons, find?_cons, ih]

/-- A name that is removed is only missed in its own directory. -/
theorem remove_entry {name : name_t} (h : (store.dentry e).parent ≠ d) :
    (dentry_remove store e).entry d name = store.entry d name := by
  have hget : dentry_rcu_get (dentry_remove store e) d name = dentry_rcu_get store d name := by
    rw [dentry_rcu_get, find_congr fun x _ =>
      ⟨remove_field (·.parent) (fun _ _ => rfl) x, remove_field (·.name) (fun _ _ => rfl) x⟩]
    exact find_erase (by simp [h])
  rw [Store.entry, Store.entry, hget]
  split
  · exact remove_field (·.vnode) (fun _ _ => rfl) _
  · rfl

theorem remove_dentry_entry {name : name_t} (h : (s.store.dentry p.dentry).parent ≠ d) :
    (remove_dentry s dir p missing).s.store.entry d name = s.store.entry d name := by
  rcases remove_dentry_cases s dir p missing with hs | hs <;> rw [hs]
  exact remove_entry h

/-- The steps of a walk from directory to name under `t` stay in the mount `m` and come
to the names that are listed. -/
structure Plain (s : System) (n m t : Nat) : Prop where
  mounts : ∀ x ∈ (s.ns n).mountMap, x.1.1 = m → ¬ s.store.Under t x.1.2
  links : ∀ d ∈ s.store.map, s.store.Under t d → s.store.hasType d .VSYMLINK = false
  listed : ∀ d < s.store.fresh, s.store.Under t d → (s.store.dentry d).children.Nodup ∧
    ∀ c ∈ (s.store.dentry d).children, c ∈ s.store.map ∧ (s.store.dentry c).parent = d

instance (s : System) (n m t : Nat) : Decidable (Plain s n m t) :=
  decidable_of_iff ((∀ x ∈ (s.ns n).mountMap, _) ∧ (∀ d ∈ s.store.map, _) ∧ ∀ d < s.store.fresh, _)
    ⟨fun h => ⟨h.1, h.2.1, h.2.2⟩, fun h => ⟨h.mounts, h.links, h.listed⟩⟩

theorem remove_under {a : Nat} : (dentry_remove store d).Under a e ↔ store.Under a e := by
  rw [Store.Under, Store.Under, funext (remove_field (s := store) (d := d) (·.parent) fun _ _ => rfl)]

theorem Plain.remove (h : Plain s n m t) : Plain { s with store := dentry_remove s.store d } n m t where
  mounts x hx hm hu := h.mounts x hx hm (remove_under.1 hu)
  links x hx hu := by
    rw [Store.hasType, remove_field (·.vnode) fun _ _ => rfl]
    exact h.links x (mem_of_mem_erase hx) (remove_under.1 hu)
  listed x hx hu := by
    obtain ⟨hnodup, hlisted⟩ := h.listed x hx (remove_under.1 hu)
    have hkept : ∀ c ∈ (s.store.dentry x).children, c ≠ d →
        c ∈ s.store.map.erase d ∧ ((dentry_remove s.store d).dentry c).parent = x := by
      intro c hc hcd
      rw [remove_field (·.parent) fun _ _ => rfl]
      exact ⟨(mem_erase_of_ne hcd).2 (hlisted c hc).1, (hlisted c hc).2⟩
    rw [remove_children]
    split_ifs with hxd
    · refine ⟨hnodup.erase d, fun c hc => ?_⟩
      obtain ⟨hcd, hc⟩ := hnodup.mem_erase_iff.1 hc
      exact hkept c hc hcd
    · refine ⟨hnodup, fun c hc => hkept c hc ?_⟩
      rintro rfl
      exact hxd (hlisted c hc).2.symm

/-- A removal under `t`: only directories lose names that hold a dentry under `t`. -/
structure Stays (n m t : Nat) (s s' : System) : Prop where
  plain : Plain s' n m t
  fresh : s'.store.fresh = s.store.fresh
  parent : ∀ x, (s'.store.dentry x).parent = (s.store.dentry x).parent
  entry : ∀ d, (∀ x, s.store.Under t x → (s.store.dentry x).parent ≠ d) →
    ∀ name, s'.store.entry d name = s.store.entry d name

theorem Plain.stays (h : Plain s n m t) : Stays n m t s s := ⟨h, rfl, fun _ => rfl, fun _ _ _ => rfl⟩

theorem Stays.under (h : Stays n m t s s') : s'.store.Under t e ↔ s.store.Under t e := by
  rw [Store.Under, Store.Under, funext h.parent]

theorem Stays.trans (h : Stays n m t s s') (h' : Stays n m t s' s'') : Stays n m t s s'' where
  plain := h'.plain
  fresh := h'.fresh.trans h.fresh
  parent x := (h'.parent x).trans (h.parent x)
  entry d hd name := by
    refine (h'.entry d (fun x hx => ?_) name).trans (h.entry d hd name)
    rw [h.parent]
    exact hd x (h.under.1 hx)

theorem dentry_stays (h : Plain s n m t) (hu : s.store.Under t p.dentry) :
    Stays n m t s (remove_dentry s dir p missing).s := by
  rcases remove_dentry_cases s dir p missing with hs | hs <;> rw [hs]
  · exact h.stays
  · exact ⟨h.remove, rfl, remove_field (·.parent) fun _ _ => rfl, fun d hd name => remove_entry (hd _ hu)⟩

theorem Plain.child (h : Plain s n m t) (hd : d < s.store.fresh) (hu : s.store.Under t d)
    (hc : first_child s n ⟨m, d⟩ = some (.ok c)) :
    ∃ e < s.store.fresh, s.store.Under t e ∧ c = { s := s, path := some ⟨m, e⟩ } := by
  obtain ⟨x, hx, hstep⟩ := Option.map_eq_some_iff.1 hc
  obtain ⟨hmap, hpar⟩ := (h.listed d hd hu).2 x (mem_of_head? hx)
  cases hget : dentry_rcu_get s.store d (s.store.dentry x).name with
  | none =>
    rw [dentry_rcu_get, find?_eq_none] at hget
    exact absurd (hget x hmap) (by simp [hpar])
  | some e =>
    obtain ⟨he, hep, -⟩ := mem_of_rcu_get hget
    have heu : s.store.Under t e := Below.child (by rw [hep]; exact hu)
    refine ⟨e, s.store.map_lt e he, heu, ?_⟩
    refine path_step_plain hget (h.links e he heu) (fun y hy => ⟨fun hkey => ?_, fun hkey => ?_⟩) hstep
    · exact h.mounts y hy (congrArg Prod.fst hkey) (by rw [hkey]; exact hu)
    · exact h.mounts y hy (congrArg Prod.fst hkey) (by rw [hkey]; exact heu)

theorem recursive_stays (h : Plain s n m t) (hd : d < s.store.fresh) (hu : s.store.Under t d) :
    Stays n m t s (vfs_remove_recursive n fuel s ⟨m, d⟩).s := by
  induction fuel generalizing s d with
  | zero => exact h.stays
  | succ fuel ih =>
    rw [vfs_remove_recursive]
    dsimp only
    split_ifs
    · exact h.stays
    · exact dentry_stays h hu
    · split
      · exact dentry_stays h hu
      · exact h.stays
      · next c hc =>
        obtain ⟨e, he, heu, rfl⟩ := h.child hd hu hc
        have hchild := ih h he heu
        dsimp only
        split
        · exact hchild
        · -- the listing starts again
          exact hchild.trans (ih hchild.plain (by rw [hchild.fresh]; exact hd) (hchild.under.2 hu))

/-- No mount with `MODE_WRITE` shows the dentry. -/
def OnlyRead (s : System) (d : Nat) : Prop :=
  ∀ m < s.mfresh, has (s.mount m).mode MODE_WRITE = true → ¬ s.store.Under (s.mount m).source d

instance (s : System) (d : Nat) : Decidable (OnlyRead s d) := inferInstanceAs (Decidable (∀ m < s.mfresh, _))

theorem OnlyRead.walked (h : OnlyRead s d) (hd : d < s.store.fresh) (hw : Walked s s') : OnlyRead s' d := by
  intro m hm hmode hunder
  rw [hw.mfresh] at hm
  rw [hw.mount] at hmode hunder
  refine h m hm hmode ?_
  refine Below.congr (p := fun x => x < s.store.fresh) (fun x hx => ?_) (fun x hx => (hw.store.parent x hx).symm) hd
    hunder
  exact (s'.store.parent_le x).trans_lt hx

/-- The name that is found is below the source of its mount, and for a recursive removal
the steps under it stay there. -/
structure Contained (n : Nat) (mode : mode_t) (f : Found) : Prop where
  valid : f.s.Valid f.child
  below : f.child.dentry ≠ (f.s.mount f.child.mount).source
  plain : has mode MODE_RECURSIVE = true → Plain f.s n f.child.mount f.child.dentry

instance (n : Nat) (mode : mode_t) (f : Found) : Decidable (Contained n mode f) :=
  decidable_of_iff (f.s.Valid f.child ∧ f.child.dentry ≠ (f.s.mount f.child.mount).source ∧
      (has mode MODE_RECURSIVE = true → Plain f.s n f.child.mount f.child.dentry))
    ⟨fun h => ⟨h.1, h.2.1, h.2.2⟩, fun h => ⟨h.valid, h.below, h.plain⟩⟩

theorem remove_found_onlyRead (h : Contained n mode f) (hd : OnlyRead f.s d) (name : name_t) :
    (remove_found n fuel f mode).s.store.entry d name = f.s.store.entry d name := by
  obtain ⟨hlt, hfresh, hunder⟩ := h.valid
  -- the mount of the target has `MODE_WRITE` and shows every directory that loses a name
  have hshown : ¬ (!writable f.s f.child) = true → ∀ x, f.s.store.Under f.child.dentry x →
      (f.s.store.dentry x).parent ≠ d := by
    rintro hwrite x hx rfl
    refine hd f.child.mount hlt (by simpa [writable] using hwrite) ?_
    by_cases hroot : x = f.child.dentry
    · rw [hroot]
      exact hunder.up h.below
    · exact hunder.trans (hx.up hroot)
  rw [remove_found]
  split_ifs with hpos hdir hisdir hwrite hrec
  · rfl
  · rfl
  · rfl
  · rfl
  · exact (recursive_stays (h.plain hrec) hfresh .refl).entry d (hshown hwrite) name
  · exact remove_dentry_entry (hshown hwrite _ .refl)

theorem remove_onlyRead
    (h : ∀ f, path_walk_parent_and_child s n cwd pathname = .ok f → Contained n pathname.mode f)
    (hd : d < s.store.fresh) (hread : OnlyRead s d) (name : name_t) :
    (vfs_remove s n fuel cwd pathname).s.store.entry d name = s.store.entry d name := by
  rw [vfs_remove]
  split
  · rfl
  · next f hf =>
    have hw := walked_found hf
    exact (remove_found_onlyRead (h f hf) (hread.walked hd hw) name).trans (hw.store.entry d name)

/-! ## Runs -/

/-- The mounts of all processes, and the files that they have open. -/
structure Kernel where
  s : System
  files : List file_t

/-- `p` is the path of a file or a working directory, `n` the namespace of the process. -/
inductive Call where
  | openat (n : Nat) (p : path_t) (pathname : pathname_t)
  | open2 (n : Nat) (p : path_t) (pathname : pathname_t)
  | walk (n : Nat) (p : path_t) (pathname : pathname_t)
  | write (i : Nat) (buffer : List Char)
  | link (n : Nat) (p : path_t) (oldPathname newPathname : pathname_t)
  | symlink (n : Nat) (p : path_t) (oldPathname newPathname : pathname_t)
  | remove (n fuel : Nat) (p : path_t) (pathname : pathname_t)

/-- The kernel after a call, and the paths that the call has worked on. `vfs_open2` makes
the same file twice. -/
def call (k : Kernel) : Call → Kernel × List path_t
  | .openat n p pathname =>
    let o := vfs_openat k.s n p pathname
    ({ s := o.s, files := k.files ++ o.result.toOption.toList }, o.paths)
  | .open2 n p pathname =>
    let o := vfs_openat k.s n p pathname
    ({ s := o.s, files := k.files ++ o.result.toOption.toList ++ o.result.toOption.toList }, o.paths)
  | .walk n p pathname =>
    match path_walk k.s n p pathname with
    | .ok c => ({ k with s := c.s }, c.path.toList)
    | .error _ => (k, [])
  | .write i buffer =>
    match k.files[i]? with
    | some file =>
      let w := vfs_write k.s file buffer
      ({ s := w.2.s, files := k.files.set i w.1 }, w.2.paths)
    | none => (k, [])
  | .link n p oldPathname newPathname =>
    let o := vfs_link k.s n p oldPathname newPathname
    ({ k with s := o.s }, o.paths)
  | .symlink n p oldPathname newPathname =>
    let o := vfs_symlink k.s n p oldPathname newPathname
    ({ k with s := o.s }, o.paths)
  | .remove n fuel p pathname =>
    let o := vfs_remove k.s n fuel p pathname
    ({ k with s := o.s }, o.paths)

def call_step (k : Kernel) (c : Call) : Option Kernel := some (call k c).1

/-- The call reaches only mounts without `MODE_WRITE`. -/
def ReadsOnly (k : Kernel) (c : Call) : Prop := ReadOnly k.s (call k c).2

instance (k : Kernel) (c : Call) : Decidable (ReadsOnly k c) := inferInstanceAs (Decidable (ReadOnly _ _))

/-- The call opens a regular file that is not empty, to truncate it. -/
def Truncates (k : Kernel) : Call → Prop
  | .openat n p pathname => truncates k.s n p pathname = true
  | .open2 n p pathname => truncates k.s n p pathname = true
  | _ => False

instance (k : Kernel) : (c : Call) → Decidable (Truncates k c)
  | .openat _ _ _ => inferInstanceAs (Decidable (_ = _))
  | .open2 _ _ _ => inferInstanceAs (Decidable (_ = _))
  | .walk _ _ _ => .isFalse id
  | .write _ _ => .isFalse id
  | .link _ _ _ _ => .isFalse id
  | .symlink _ _ _ _ => .isFalse id
  | .remove _ _ _ _ => .isFalse id

/-- What `file_new` makes sure of. -/
def FilesWithin (k : Kernel) : Prop := ∀ file ∈ k.files, Within file.mode (k.s.mount file.path.mount).mode

variable {k : Kernel}

theorem FilesWithin.open (h : FilesWithin k) (hm : s.mount = k.s.mount) {r : Except Failure file_t}
    (hr : ∀ file, r = .ok file → Within file.mode (k.s.mount file.path.mount).mode) :
    FilesWithin { s := s, files := k.files ++ r.toOption.toList } := by
  intro file hfile
  rw [hm]
  rcases mem_append.1 hfile with hold | hnew
  · exact h file hold
  · exact hr file (toOption_eq_some.1 (by simpa using hnew))

/-- What one call does that only reaches mounts without `MODE_WRITE`. -/
theorem call_readsOnly (h : FilesWithin k) (c : Call) (hr : ReadsOnly k c) :
    (Unchanged k.s.store (call k c).1.s.store ↔ ¬ Truncates k c) ∧ (call k c).1.s.mount = k.s.mount ∧
      FilesWithin (call k c).1 := by
  have hquiet : ∀ {k' : Kernel}, Kept k.s k'.s → k'.files = k.files → ¬ Truncates k c →
      (Unchanged k.s.store k'.s.store ↔ ¬ Truncates k c) ∧ k'.s.mount = k.s.mount ∧ FilesWithin k' := by
    intro k' hk hf ht
    refine ⟨iff_of_true hk.store ht, hk.mount, ?_⟩
    rw [FilesWithin, hk.mount, hf]
    exact h
  cases c with
  | openat n p pathname =>
    obtain ⟨hiff, hm, hres⟩ := openat_readOnly hr
    refine ⟨?_, hm, h.open hm hres⟩
    rw [Truncates, Bool.not_eq_true, ← hiff]
    exact ⟨fun hu => ⟨hu, hm⟩, Kept.store⟩
  | open2 n p pathname =>
    obtain ⟨hiff, hm, hres⟩ := openat_readOnly hr
    refine ⟨?_, hm, ?_⟩
    · rw [Truncates, Bool.not_eq_true, ← hiff]
      exact ⟨fun hu => ⟨hu, hm⟩, Kept.store⟩
    · exact (h.open hm hres).open rfl (by rwa [hm])
  | walk n p pathname =>
    rw [call]
    split
    · next c hc => exact hquiet (Walked.kept (keeps_walked.walk .refl hc)) rfl id
    · exact hquiet .refl rfl id
  | write i buffer =>
    rw [ReadsOnly, call] at hr
    rw [call]
    cases hfile : k.files[i]? with
    | none => exact hquiet .refl rfl id
    | some file =>
      rw [hfile] at hr
      have hwithin := h file (mem_of_getElem? hfile)
      have hk := kept_write hwithin hr
      refine ⟨iff_of_true hk.store id, hk.mount, fun x hx => ?_⟩
      rw [hk.mount]
      rcases mem_or_eq_of_mem_set hx with hold | rfl
      · exact h x hold
      · rw [write_file.1, write_file.2]
        exact hwithin
  | link n p old new => exact hquiet (kept_link hr) rfl id
  | symlink n p old new => exact hquiet (kept_symlink hr) rfl id
  | remove n fuel p pathname => exact hquiet (kept_remove hr) rfl id

/-- Names and data stay as they are along a run exactly if nothing is truncated. -/
theorem unchanged_iff {k₀ : Kernel} {calls : List Call} (hf : FilesWithin k) (hu : Unchanged k₀.s.store k.s.store)
    (hr : Along call_step ReadsOnly k calls) :
    Always call_step (fun k' => Unchanged k₀.s.store k'.s.store) k calls ↔
      Along call_step (fun k c => ¬ Truncates k c) k calls := by
  induction calls generalizing k with
  | nil => exact iff_of_true hu trivial
  | cons c calls ih =>
    obtain ⟨hiff, _, hfiles⟩ := call_readsOnly hf c hr.1
    have hrest := hr.2 _ rfl
    constructor
    · rintro ⟨_, hall⟩
      have hnext := hall _ rfl
      refine ⟨hiff.1 (hu.symm.trans hnext.head), ?_⟩
      rintro _ ⟨⟩
      exact (ih hfiles hnext.head hrest).1 hnext
    · rintro ⟨hno, hall⟩
      refine ⟨hu, ?_⟩
      rintro _ ⟨⟩
      exact (ih hfiles (hu.trans (hiff.2 hno)) hrest).2 (hall _ rfl)

/-- Two file systems. The first one has `/mnt`, `/tmp` and `/tmp/shelf`, the second one the
file `book` in its directory `data`. -/
def library : Store where
  dentry := fun
    | 0 => { name := [], parent := 0, vnode := some 0, superblock := 0, children := [1, 2], mountCount := 0 }
    | 1 => { name := "mnt".toList, parent := 0, vnode := some 0, superblock := 0, children := [], mountCount := 0 }
    | 2 => { name := "tmp".toList, parent := 0, vnode := some 0, superblock := 0, children := [3], mountCount := 0 }
    | 3 => { name := "shelf".toList, parent := 2, vnode := some 0, superblock := 0, children := [], mountCount := 0 }
    | 4 => { name := [], parent := 4, vnode := some 0, superblock := 1, children := [5], mountCount := 0 }
    | 5 => { name := "data".toList, parent := 4, vnode := some 0, superblock := 1, children := [6], mountCount := 0 }
    | 6 => { name := "book".toList, parent := 5, vnode := some 1, superblock := 1, children := [], mountCount := 0 }
    | _ => { name := [], parent := 0, vnode := none, superblock := 0, children := [], mountCount := 0 }
  fresh := 7
  map := [0, 1, 2, 3, 4, 5, 6]
  vnode := fun v =>
    if v = 1 then { type := .VREG, data := "text".toList, tmpfs := true }
    else { type := .VDIR, data := [], tmpfs := true }
  vfresh := 2
  lookup := fun _ _ => none
  parent_le := by
    intro d
    split <;> dsimp only <;> omega
  map_lt := by decide

/-- The first file system is the root, and the second one is mounted at `/mnt` without
`MODE_WRITE`. -/
def mounted : List Action :=
  [.mount 0 none 0 (MODE_READ ||| MODE_WRITE), .mount 0 (some ⟨0, 1⟩) 4 MODE_READ]

/-- The book is opened, written to and removed, and a second one is created. -/
def useBook : List Call :=
  [.openat 0 ⟨0, 0⟩ ⟨"/mnt/data/book".toList, MODE_READ⟩, .write 0 "note".toList,
    .remove 0 6 ⟨0, 0⟩ ⟨"/mnt/data/book".toList, MODE_NONE⟩,
    .openat 0 ⟨0, 0⟩ ⟨"/mnt/data/copy".toList, MODE_CREATE ||| MODE_WRITE⟩]

/-- The directory `data` is bound over `/tmp/shelf` as well. -/
def lent : List Action := mounted ++ [.bind 0 (some ⟨0, 3⟩) ⟨1, 5⟩ MODE_READ]

/-- The book is opened to be truncated, without any permission asked for. -/
def truncateBook : List Call := [.openat 0 ⟨0, 0⟩ ⟨"/mnt/data/book".toList, MODE_TRUNCATE⟩]

end Patchwork.Vfs
