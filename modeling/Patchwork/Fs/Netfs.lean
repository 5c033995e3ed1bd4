import Patchwork.Lib.Runs
/-!
# Socket directories and the dentry cache

The name lookups of `netfs.c` through `path_rcu_step` and `dentry_lookup`, for one
superblock that processes of any number of namespaces can see. Each call runs to its
end before the next one. A call is made by a process with a current namespace, and it
starts at the root of the file system or at the dentry of an open file.

`netfs_family_lookup` makes the dentry of a socket's directory positive only for the
namespace that owns the socket. A dentry that is in the map already is returned to
everyone: no dentry of netfs has a `revalidate`. So the directories are private as long
as nobody comes upon a dentry that another namespace's lookup has put there.
-/

namespace Patchwork.Netfs

open Option List Function Lib

/-- What a vnode of netfs stands for. -/
inductive Node where
  | root
  | family (family : String)
  | familyFile (family name : String)
  | socket (k : Nat)
  | socketFile (k : Nat) (name : String)
deriving Repr, DecidableEq

namespace Node

/-- `vnode->type == VDIR`. -/
def isDir : Node → Bool
  | .root | .family _ | .socket _ => true
  | .familyFile _ _ | .socketFile _ _ => false

/-- The socket in whose directory the vnode is, the directory itself included. -/
def socket? : Node → Option Nat
  | .socket k | .socketFile k _ => some k
  | _ => none

end Node

structure dentry_t where
  name : String
  /-- The root is its own parent. -/
  parent : Nat
  ref : Nat
  vnode : Option Node
  /-- The namespace whose lookup has made the dentry. -/
  maker : Nat
deriving Repr, DecidableEq

structure socket_t where
  family : String
  id : String
  /-- The weak pointer, which is cleared when the namespace is destroyed. -/
  ownerNs : Option Nat
  /-- The namespace that has created the socket. -/
  creator : Nat
deriving Repr, DecidableEq

structure System where
  families : List String
  sockets : List socket_t
  dentry : Nat → dentry_t
  /-- The next dentry that `cache_alloc` hands out. -/
  fresh : Nat
  map : List Nat
  /-- The dentries of the open files. -/
  files : List Nat
  /-- The namespaces that have got at a dentry of a socket, with the socket. -/
  log : List (Nat × Nat)

def setDentry (s : System) (d : Nat) (x : dentry_t) : System :=
  { s with dentry := update s.dentry d x }

/-- `netfs_mount`. The root is referenced by the superblock. -/
def init (families : List String) : System :=
  { families := families, sockets := [], map := [0], fresh := 1, files := [], log := []
    dentry := update
      (fun _ => { name := "", parent := 0, ref := 0, vnode := none, maker := 0 }) 0
      { name := "", parent := 0, ref := 1, vnode := some .root, maker := 0 } }

/-! ## The file system -/

def factoryFiles : List String := ["stream", "dgram", "seqpacket", "raw", "rdm"]

def familyFiles : List String := factoryFiles ++ ["addrs"]

def socketFiles : List String := ["data", "accept", "ctl"]

def netfs_lookup (s : System) (name : String) : Option Node :=
  if name ∈ s.families then some (.family name) else none

def netfs_family_lookup (s : System) (ns : Nat) (family name : String) : Option Node :=
  if name ∈ familyFiles then some (.familyFile family name)
  else
    (s.sockets.findIdx? fun socket =>
      socket.family == family && socket.id == name && socket.ownerNs == some ns).map .socket

def netfs_socket_lookup (k : Nat) (name : String) : Option Node :=
  if name ∈ socketFiles then some (.socketFile k name) else none

/-- `dir->ops->lookup` for a process of the namespace `ns`. -/
def lookup (s : System) (ns : Nat) (dir : Node) (name : String) : Option Node :=
  match dir with
  | .root => netfs_lookup s name
  | .family family => netfs_family_lookup s ns family name
  | .socket k => netfs_socket_lookup k name
  | .familyFile _ _ | .socketFile _ _ => none

/-- The sockets of accepted connections have no directory and are left out. -/
def netfs_factory_open (s : System) (ns : Nat) (family : String) : System :=
  { s with sockets := s.sockets ++
      [{ family := family, id := toString s.sockets.length, ownerNs := some ns, creator := ns }] }

/-- `file->ops->open`, as far as it makes sockets that have a directory. -/
def openNode (s : System) (ns : Nat) : Node → System
  | .familyFile family name => if name ∈ factoryFiles then netfs_factory_open s ns family else s
  | _ => s

/-! ## The dentry cache -/

def dentry_rcu_get (s : System) (parent : Nat) (name : String) : Option Nat :=
  s.map.find? fun d => (s.dentry d).parent == parent && (s.dentry d).name == name

def ref (s : System) (d : Nat) : System := setDentry s d { s.dentry d with ref := ((s.dentry d).ref + 1) % 2 ^ 32 }

/-- `dentry_free`, up to the reference to the parent. -/
def dentry_free (s : System) (d : Nat) : System :=
  { setDentry s d { s.dentry d with ref := 0, vnode := none } with map := s.map.erase d }

/-- `UNREF`. The last reference frees the dentry and drops the one to its parent, which
is older, so `d + 1` is fuel enough. -/
def unref : Nat → System → Nat → System
  | 0, s, _ => s
  | fuel + 1, s, d =>
    if (s.dentry d).ref ≤ 1 then
      if (s.dentry d).parent = d then dentry_free s d else unref fuel (dentry_free s d) (s.dentry d).parent
    else setDentry s d { s.dentry d with ref := (s.dentry d).ref - 1 }

def dentry_put (s : System) (d : Nat) : System := unref (d + 1) s d

/-- The part of `dentry_lookup` for a name that is not in the map: `dentry_new`, and
then the file system is asked. -/
def dentry_lookup (s : System) (ns parent : Nat) (dir : Node) (name : String) : System :=
  { setDentry (ref s parent) s.fresh
      { name := name, parent := parent, ref := 1, vnode := lookup s ns dir name, maker := ns } with
    map := s.fresh :: s.map, fresh := s.fresh + 1 }

/-! ## Walks -/

structure Ctx where
  s : System
  dentry : Nat
  /-- The dentry of the last `dentry_lookup`, to which the walk has a reference. -/
  lookup : Option Nat

/-- The socket to whose directory a dentry belongs. -/
def socketOf (s : System) (d : Nat) : Option Nat := (s.dentry d).vnode.bind Node.socket?

/-- The walk gets to a dentry. -/
def Ctx.arrive (c : Ctx) (ns d : Nat) : Ctx :=
  { c with
    dentry := d
    s := { c.s with log := c.s.log ++ (socketOf c.s d).toList.map fun k => (ns, k) } }

def path_walk_set_lookup (c : Ctx) (d : Nat) : Ctx :=
  match c.lookup with
  | some e => { c with s := dentry_put c.s e, lookup := some d }
  | none => { c with lookup := some d }

/-- One component. The walk leaves the file system by `".."` at its root. -/
def path_rcu_step (ns : Nat) (c : Ctx) (name : String) : Option Ctx :=
  if name = "." then some c
  else if name = ".." then
    if (c.s.dentry c.dentry).parent = c.dentry then none
    else some (c.arrive ns (c.s.dentry c.dentry).parent)
  else
    match dentry_rcu_get c.s c.dentry name with
    | some d => some (c.arrive ns d)
    | none =>
      match (c.s.dentry c.dentry).vnode with
      | none => none
      | some dir =>
        if dir.isDir then
          some ((path_walk_set_lookup { c with s := dentry_lookup c.s ns c.dentry dir name } c.s.fresh).arrive ns
            c.s.fresh)
        else none

/-- The result has a reference of its own. -/
def path_walk_get_result (c : Ctx) : System :=
  match c.lookup with
  | none => ref c.s c.dentry
  | some e => if e = c.dentry then c.s else dentry_put (ref c.s c.dentry) e

/-- Where a walk starts: at the root, or at an open file. -/
def start (s : System) : Option Nat → Option Nat
  | none => some 0
  | some i => s.files[i]?

def path_walk (s : System) (ns d : Nat) (names : List String) : Option Ctx :=
  run (path_rcu_step ns) { s := s, dentry := d, lookup := none } names

inductive Action where
  /-- A walk whose result is dropped. -/
  | lookup (ns : Nat) (source : Option Nat) (names : List String)
  | openat (ns : Nat) (source : Option Nat) (names : List String)
  | close (i : Nat)
  | destroy (ns : Nat)

/-- `vfs_openat` after the walk. -/
def vfs_openat (ns : Nat) (c : Ctx) : System :=
  let s := path_walk_get_result c
  match (s.dentry c.dentry).vnode with
  | none => dentry_put s c.dentry
  | some node => openNode { s with files := s.files ++ [c.dentry] } ns node

/-- The last reference to a namespace is dropped, which clears the weak pointers to it. -/
def clear_owner (s : System) (ns : Nat) : System :=
  { s with sockets := s.sockets.map fun socket =>
      if socket.ownerNs = some ns then { socket with ownerNs := none } else socket }

/-- A walk that fails frees the dentries that it has made. -/
def step (s : System) : Action → Option System
  | .lookup ns source names =>
    (start s source).map fun d =>
      match path_walk s ns d names with
      | none => s
      | some c => dentry_put (path_walk_get_result c) c.dentry
  | .openat ns source names =>
    (start s source).map fun d =>
      match path_walk s ns d names with
      | none => s
      | some c => vfs_openat ns c
  | .close i => s.files[i]?.map fun d => dentry_put { s with files := s.files.eraseIdx i } d
  | .destroy ns => some (clear_owner s ns)

/-! ## Privacy -/

def Created (s : System) (ns k : Nat) : Prop := ∃ socket, s.sockets[k]? = some socket ∧ socket.creator = ns

/-- Whoever has got at a dentry of a socket is of the namespace that has created the socket. -/
def Right (s : System) : Prop := ∀ ns k, (ns, k) ∈ s.log → Created s ns k

/-- The dentry is no socket's, or `ns` has put it in the map itself. -/
def Own (ns : Nat) (s : System) (d : Nat) : Prop := (socketOf s d).isSome = true → (s.dentry d).maker = ns

instance (ns : Nat) (s : System) (d : Nat) : Decidable (Own ns s d) :=
  inferInstanceAs (Decidable (_ → _))

/-- What one component comes upon without asking the file system is `Own`. -/
def OwnStep (ns : Nat) (c : Ctx) (name : String) : Prop :=
  if name = ".." then Own ns c.s (c.s.dentry c.dentry).parent
  else ∀ d ∈ dentry_rcu_get c.s c.dentry name, Own ns c.s d

instance (ns : Nat) (c : Ctx) (name : String) : Decidable (OwnStep ns c name) :=
  inferInstanceAs (Decidable (ite _ _ _))

/-- What a walk from `d` comes upon without asking the file system is `Own`, from its start on. -/
def OwnWalk (s : System) (ns d : Nat) (names : List String) : Prop :=
  Own ns s d ∧ Along (path_rcu_step ns) (OwnStep ns) { s := s, dentry := d, lookup := none } names

instance (s : System) (ns d : Nat) (names : List String) : Decidable (OwnWalk s ns d names) :=
  inferInstanceAs (Decidable (_ ∧ _))

def Private (s : System) : Action → Prop
  | .lookup ns source names | .openat ns source names => ∀ d ∈ start s source, OwnWalk s ns d names
  | .close _ | .destroy _ => True

instance (s : System) : ∀ a, Decidable (Private s a)
  | .lookup ns source names | .openat ns source names =>
    inferInstanceAs (Decidable (∀ d ∈ start s source, OwnWalk s ns d names))
  | .close _ | .destroy _ => .isTrue trivial

/-! ## References only take names out of the map -/

/-- What dropping and taking references can do. -/
structure Shrinks (s s' : System) : Prop where
  sockets : s'.sockets = s.sockets
  log : s'.log = s.log
  maker : ∀ d, (s'.dentry d).maker = (s.dentry d).maker
  vnode : ∀ d, (s'.dentry d).vnode = (s.dentry d).vnode ∨ (s'.dentry d).vnode = none

variable {s s' s'' : System} {c c' : Ctx} {ns k d : Nat} {name : String} {names : List String}

theorem Shrinks.refl : Shrinks s s := ⟨rfl, rfl, fun _ => rfl, fun _ => .inl rfl⟩

theorem Shrinks.trans (h : Shrinks s s') (h' : Shrinks s' s'') : Shrinks s s'' where
  sockets := h'.sockets.trans h.sockets
  log := h'.log.trans h.log
  maker d := (h'.maker d).trans (h.maker d)
  vnode d := by
    rcases h'.vnode d with hd | hd
    · rw [hd]
      exact h.vnode d
    · exact .inr hd

theorem shrinks_setDentry {x : dentry_t} (hm : x.maker = (s.dentry d).maker)
    (hv : x.vnode = (s.dentry d).vnode ∨ x.vnode = none) : Shrinks s (setDentry s d x) where
  sockets := rfl
  log := rfl
  maker e := by
    by_cases he : e = d
    · subst he
      simpa only [setDentry, update_self] using hm
    · simp only [setDentry, update_of_ne he]
  vnode e := by
    by_cases he : e = d
    · subst he
      simpa only [setDentry, update_self] using hv
    · simp only [setDentry, update_of_ne he, true_or]

theorem shrinks_ref : Shrinks s (ref s d) := shrinks_setDentry rfl (.inl rfl)

theorem shrinks_free : Shrinks s (dentry_free s d) := by
  have h : Shrinks s (setDentry s d { s.dentry d with ref := 0, vnode := none }) := shrinks_setDentry rfl (.inr rfl)
  exact { h with }

theorem shrinks_unref (fuel : Nat) : Shrinks s (unref fuel s d) := by
  induction fuel generalizing s d with
  | zero => exact .refl
  | succ fuel ih =>
    rw [unref]
    split_ifs with h1 hroot
    · exact shrinks_free
    · exact shrinks_free.trans ih
    · exact shrinks_setDentry rfl (.inl rfl)

theorem shrinks_put : Shrinks s (dentry_put s d) := shrinks_unref _

theorem shrinks_set_lookup : Shrinks c.s (path_walk_set_lookup c d).s := by
  rw [path_walk_set_lookup]
  split
  · exact shrinks_put
  · exact .refl

theorem shrinks_get_result : Shrinks c.s (path_walk_get_result c) := by
  rw [path_walk_get_result]
  split
  · exact shrinks_ref
  · split_ifs
    · exact .refl
    · exact shrinks_ref.trans shrinks_put

/-! ## The invariant -/

structure Inv (s : System) : Prop where
  /-- A socket's dentry was made by a lookup of the socket's namespace. -/
  made : ∀ d k, socketOf s d = some k → Created s (s.dentry d).maker k
  owned : ∀ (k : Nat) (socket : socket_t) (ns : Nat), s.sockets[k]? = some socket → socket.ownerNs = some ns →
    socket.creator = ns
  right : Right s

theorem inv_init (families : List String) : Inv (init families) where
  made d k h := by
    by_cases hd : d = 0
    · subst hd
      simp [init, socketOf, Node.socket?] at h
    · simp [init, socketOf, update_of_ne hd] at h
  owned k socket ns h := by simp [init] at h
  right ns k h := by simp [init] at h

theorem Inv.shrink (h : Inv s) (hs : Shrinks s s') : Inv s' where
  made d k hk := by
    rw [hs.maker d, Created, hs.sockets]
    rcases hs.vnode d with hd | hd
    · exact h.made d k (by rwa [socketOf, hd] at hk)
    · simp [socketOf, hd] at hk
  owned := by
    rw [hs.sockets]
    exact h.owned
  right ns k hk := by
    rw [hs.log] at hk
    rw [Created, hs.sockets]
    exact h.right ns k hk

theorem Inv.created (h : Inv s) (ho : Own ns s d) (hk : socketOf s d = some k) : Created s ns k := by
  have hmaker : (s.dentry d).maker = ns := ho (by rw [hk]; rfl)
  rw [← hmaker]
  exact h.made d k hk

/-- The file system finds a socket for its namespace, and the files of a socket for
whoever is in its directory. -/
theorem created_of_lookup (h : Inv s) {dir : Node} (hdir : ∀ k, dir.socket? = some k → Created s ns k)
    (hk : (lookup s ns dir name).bind Node.socket? = some k) : Created s ns k := by
  cases dir with
  | root =>
    simp only [lookup, netfs_lookup] at hk
    split_ifs at hk <;> simp [Node.socket?] at hk
  | family family =>
    simp only [lookup, netfs_family_lookup] at hk
    split_ifs at hk
    · simp [Node.socket?] at hk
    · cases hfind : s.sockets.findIdx? fun socket =>
          socket.family == family && socket.id == name && socket.ownerNs == some ns with
      | none => simp [hfind] at hk
      | some i =>
        obtain rfl : i = k := by simpa [hfind, Node.socket?] using hk
        obtain ⟨hlt, hi, _⟩ := findIdx?_eq_some_iff_getElem.1 hfind
        refine ⟨s.sockets[i], getElem?_eq_getElem hlt, ?_⟩
        apply h.owned i _ ns (getElem?_eq_getElem hlt)
        simp only [Bool.and_eq_true, beq_iff_eq] at hi
        exact hi.2
  | socket k' =>
    simp only [lookup, netfs_socket_lookup] at hk
    split_ifs at hk
    · obtain rfl : k' = k := by simpa [Node.socket?] using hk
      exact hdir k' rfl
    · simp at hk
  | familyFile family name' | socketFile k' name' => simp [lookup] at hk

/-- A walk of the namespace `ns` is where it may be. -/
structure Arrived (ns : Nat) (c : Ctx) : Prop where
  inv : Inv c.s
  here : ∀ k, socketOf c.s c.dentry = some k → Created c.s ns k

theorem Inv.arrive (h : Inv c.s) (ho : Own ns c.s d) : Arrived ns (c.arrive ns d) where
  inv :=
    { made := h.made
      owned := h.owned
      right := by
        intro ns' k hk
        rcases mem_append.1 hk with hk | hk
        · exact h.right ns' k hk
        · obtain ⟨k', hk', he⟩ := mem_map.1 hk
          obtain ⟨rfl, rfl⟩ := Prod.mk.inj he
          exact h.created ho (mem_toList.1 hk') }
  here k hk := h.created ho hk

theorem inv_dentry_lookup {dir : Node} (h : Arrived ns c) (hdir : (c.s.dentry c.dentry).vnode = some dir) :
    Inv (dentry_lookup c.s ns c.dentry dir name) := by
  have href : Inv (ref c.s c.dentry) := h.inv.shrink shrinks_ref
  refine ⟨?_, h.inv.owned, h.inv.right⟩
  intro d k hk
  by_cases hd : d = c.s.fresh
  · subst hd
    simp only [socketOf, dentry_lookup, setDentry, update_self] at hk ⊢
    exact created_of_lookup (s := c.s) h.inv (fun k' hk' => h.here k' (by rw [socketOf, hdir]; exact hk')) hk
  · simp only [socketOf, dentry_lookup, setDentry, update_of_ne hd] at hk ⊢
    exact href.made d k hk

theorem arrived_step (h : Arrived ns c) (ho : OwnStep ns c name) (hs : path_rcu_step ns c name = some c') :
    Arrived ns c' := by
  simp only [path_rcu_step] at hs
  split_ifs at hs with hdot hdotdot hroot
  · rwa [← some.inj hs]
  · cases hs
    exact h.inv.arrive (by simpa only [OwnStep, if_pos hdotdot] using ho)
  · simp only [OwnStep, if_neg hdotdot] at ho
    split at hs
    · next d hd =>
      cases hs
      exact h.inv.arrive (ho d hd)
    · split at hs
      · simp at hs
      · next dir hdir =>
        split_ifs at hs
        cases hs
        have hshrink := shrinks_set_lookup (c := { c with s := dentry_lookup c.s ns c.dentry dir name })
          (d := c.s.fresh)
        refine ((inv_dentry_lookup h hdir).shrink hshrink).arrive fun _ => ?_
        rw [hshrink.maker]
        simp only [dentry_lookup, setDentry, update_self]

theorem inv_walk (h : Inv s) (ho : OwnWalk s ns d names) (hw : path_walk s ns d names = some c) : Inv c.s := by
  have hstart : Arrived ns { s := s, dentry := d, lookup := none } := ⟨h, fun k hk => h.created ho.1 hk⟩
  exact ((ho.2.always (fun _ _ _ hi ha hs => arrived_step hi ha hs) hstart).last hw).inv

theorem created_append {x : socket_t} (h : Created s ns k) : Created { s with sockets := s.sockets ++ [x] } ns k := by
  obtain ⟨socket, hk, hc⟩ := h
  exact ⟨socket, by rw [List.getElem?_append_left (List.getElem?_eq_some_iff.1 hk).1]; exact hk, hc⟩

theorem inv_factory_open (h : Inv s) (family : String) : Inv (netfs_factory_open s ns family) where
  made d k hk := created_append (h.made d k hk)
  owned k socket ns' hk hns := by
    simp only [netfs_factory_open, getElem?_append, getElem?_singleton] at hk
    split_ifs at hk
    · exact h.owned k socket ns' hk hns
    · cases hk
      exact some.inj hns
  right ns' k hk := created_append (h.right ns' k hk)

theorem inv_openat (h : Inv c.s) : Inv (vfs_openat ns c) := by
  have hres : Inv (path_walk_get_result c) := h.shrink shrinks_get_result
  simp only [vfs_openat]
  split
  · exact hres.shrink shrinks_put
  · next node _ =>
    have hfile : Inv { path_walk_get_result c with files := (path_walk_get_result c).files ++ [c.dentry] } :=
      { hres with }
    cases node with
    | familyFile family name =>
      simp only [openNode]
      split_ifs
      · exact inv_factory_open hfile family
      · exact hfile
    | root | family family | socket k | socketFile k name => exact hfile

theorem inv_clear_owner (h : Inv s) : Inv (clear_owner s ns) := by
  have hcreated : ∀ ns' k, Created s ns' k → Created (clear_owner s ns) ns' k := by
    rintro ns' k ⟨socket, hk, hc⟩
    refine ⟨_, by rw [clear_owner, getElem?_map, hk]; rfl, ?_⟩
    dsimp only
    split_ifs <;> exact hc
  refine ⟨fun d k hk => hcreated _ k (h.made d k hk), ?_, fun ns' k hk => hcreated ns' k (h.right ns' k hk)⟩
  intro k socket ns' hk hns
  rw [clear_owner, getElem?_map] at hk
  obtain ⟨old, hold, rfl⟩ := map_eq_some_iff.1 hk
  split_ifs at hns ⊢
  exact h.owned k old ns' hold hns

theorem inv_step {a : Action} (h : Inv s) (ha : Private s a) (hs : step s a = some s') : Inv s' := by
  cases a with
  | lookup ns source names =>
    obtain ⟨d, hd, rfl⟩ := map_eq_some_iff.1 hs
    split
    · exact h
    · next c hc => exact ((inv_walk h (ha d hd) hc).shrink shrinks_get_result).shrink shrinks_put
  | openat ns source names =>
    obtain ⟨d, hd, rfl⟩ := map_eq_some_iff.1 hs
    split
    · exact h
    · next c hc => exact inv_openat (inv_walk h (ha d hd) hc)
  | close i =>
    obtain ⟨d, _, rfl⟩ := map_eq_some_iff.1 hs
    have hclose : Inv { s with files := s.files.eraseIdx i } := { h with }
    exact hclose.shrink shrinks_put
  | destroy ns =>
    cases hs
    exact inv_clear_owner h

/-- On every run whose walks come upon no socket's dentry of another namespace, only
the namespace of a socket gets at its directory and the files in it. -/
theorem socket_private (families : List String) (acts : List Action) (h : Along step Private (init families) acts) :
    Always step Right (init families) acts :=
  (h.always (fun _ _ _ hi ha hs => inv_step hi ha hs) (inv_init families)).mono fun _ hi => hi.right

/-- Two namespaces create a socket each, and each works with its own. -/
def ownSockets : List Action :=
  [.openat 1 none ["local", "stream"], .openat 2 none ["local", "dgram"], .openat 1 none ["local", "0", "ctl"],
    .openat 1 none ["local", "0", "data"], .lookup 2 none ["local", "1", "ctl"], .close 0,
    .lookup 2 none ["local", "1", "..", "stream"], .destroy 1]

theorem ownSockets_private : Along step Private (init ["local"]) ownSockets ∧
    Always step Right (init ["local"]) ownSockets :=
  ⟨by decide +kernel, socket_private ["local"] ownSockets (by decide +kernel)⟩

/-- The owner keeps a file of its socket open, and another namespace looks the same path up. -/
def cachedSocket : List Action :=
  [.openat 1 none ["local", "stream"], .openat 1 none ["local", "0", "ctl"], .lookup 2 none ["local", "0", "ctl"]]

theorem cachedSocket_not_private : ¬ Always step Right (init ["local"]) cachedSocket := by
  refine not_always (fun s => (2, 0) ∈ s.log ∧ s.sockets[0]?.map socket_t.creator = some 1) (by decide +kernel) ?_
  rintro s ⟨hlog, hcreator⟩ h
  obtain ⟨socket, hk, hc⟩ := h 2 0 hlog
  rw [hk] at hcreator
  have : socket.creator = 1 := some.inj hcreator
  omega

end Patchwork.Netfs
