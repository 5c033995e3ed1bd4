import Patchwork.Lib.Runs
import Patchwork.Lib.Agents
/-!
# Concurrent lookups of names in one directory

`dentry_lookup` and the searches of the dentry map around it, run by any finite set of
threads on the names of one directory. A step is one operation on the map, one attempt
to take a reference, or the callback `dir->ops->lookup` of the file system. Names are
neither created nor removed, and no allocation fails. The dentries have no `revalidate`.

The map is the chain of its dentries, newest first. There is at most one live dentry
for each name. A dentry is in the map before the file system has been asked about it,
so only lookups that come after the answer are sure to see it.
-/

namespace Patchwork.Lookup

open List Function Lib

/-- What `dir->ops->lookup` does with a dentry: it makes it positive, leaves it
negative, or fails. A directory without the operation leaves every dentry negative. -/
inductive Answer where
  | positive (vnode : Nat)
  | negative
  | err
deriving Repr, DecidableEq

structure dentry_t where
  name : String
  ref : Nat
  vnode : Option Nat
deriving Repr, DecidableEq

/-- Where a thread is. -/
inductive Place where
  | idle
  /-- A search has returned this dentry, and a failed `REF_TRY` ends the lookup. -/
  | found (name : String) (d : Nat)
  /-- At the start of `dentry_lookup`. -/
  | lookup (name : String)
  /-- The first `dentry_get` of `dentry_lookup` has found this dentry. -/
  | tried (name : String) (d : Nat)
  /-- Before `dentry_new`. -/
  | create (name : String)
  /-- Before `dentry_get` for a name for which `dentry_new` gave `EEXIST`. -/
  | again (name : String)
  /-- The new dentry is in the map, and the file system has not been asked. -/
  | asking (name : String) (d : Nat)
  /-- The lookup of `name` has yielded this dentry, with a reference. -/
  | done (name : String) (d : Nat)
  /-- In `dentry_free`, before `dentry_map_remove`. -/
  | freeing (d : Nat)
deriving Repr, DecidableEq

namespace Place

/-- The thread has a reference to `d`. -/
def holds (d : Nat) : Place → Bool
  | .asking _ e | .done _ e => e == d
  | _ => false

/-- The dentry that a lookup has got from a search or yields. -/
def got : Place → Option (String × Nat)
  | .found name d | .tried name d | .done name d => some (name, d)
  | _ => none

attribute [simp] holds got

end Place

structure System (T : Type) where
  dentry : Nat → dentry_t
  /-- The next dentry that `cache_alloc` hands out. -/
  fresh : Nat
  map : List Nat
  place : T → Place

variable {T : Type}

def init : System T :=
  { dentry := fun _ => { name := "", ref := 0, vnode := none }, fresh := 0, map := [], place := fun _ => .idle }

def setDentry (s : System T) (d : Nat) (x : dentry_t) : System T :=
  { s with dentry := update s.dentry d x }

variable [DecidableEq T]

def goto (s : System T) (t : T) (p : Place) : System T := { s with place := update s.place t p }

/-! ## The functions -/

def dentry_rcu_get (s : System T) (name : String) : Option Nat :=
  s.map.find? fun d => (s.dentry d).name == name

/-- `dentry_map_add` for a dentry of this name gives `EEXIST`. -/
def exists_live (s : System T) (name : String) : Bool :=
  s.map.any fun d => (s.dentry d).name == name && decide (0 < (s.dentry d).ref)

/-- `dentry_new`: with `EEXIST` the dentry is freed again before anyone has seen it. -/
def dentry_new (s : System T) (t : T) (name : String) : System T :=
  if exists_live s name then goto { s with fresh := s.fresh + 1 } t (.again name)
  else
    goto { setDentry s s.fresh { name := name, ref := 1, vnode := none } with
      map := s.fresh :: s.map, fresh := s.fresh + 1 } t (.asking name s.fresh)

/-- `REF_TRY` on `d`, and where the thread goes when the count is zero. -/
def ref_try (s : System T) (t : T) (name : String) (d : Nat) (fail : Place) : System T :=
  if (s.dentry d).ref = 0 then goto s t fail
  else goto (setDentry s d { s.dentry d with ref := (s.dentry d).ref + 1 }) t (.done name d)

/-- `UNREF`, which enters `dentry_free` for the last reference. -/
def unref (s : System T) (t : T) (d : Nat) : System T :=
  goto (setDentry s d { s.dentry d with ref := (s.dentry d).ref - 1 }) t
    (if (s.dentry d).ref = 1 then .freeing d else .idle)

/-- `dir->ops->lookup` and what `dentry_lookup` does with its result. -/
def ask (answer : String → Answer) (s : System T) (t : T) (name : String) (d : Nat) : System T :=
  match answer name with
  | .positive v => goto (setDentry s d { s.dentry d with vnode := some v }) t (.done name d)
  | .negative => goto s t (.done name d)
  | .err => unref s t d

/-- The part of `dentry_free` that other threads can see. -/
def dentry_free (s : System T) (t : T) (d : Nat) : System T :=
  goto { setDentry s d { s.dentry d with vnode := none } with map := s.map.erase d } t .idle

/-- One step of a thread inside a lookup or inside `dentry_free`. -/
def advance (answer : String → Answer) (s : System T) (t : T) : Option (System T) :=
  match s.place t with
  | .idle | .done _ _ => none
  | .found name d => some (ref_try s t name d .idle)
  | .lookup name =>
    match dentry_rcu_get s name with
    | some d => some (goto s t (.tried name d))
    | none => some (goto s t (.create name))
  | .tried name d => some (ref_try s t name d (.create name))
  | .create name => some (dentry_new s t name)
  | .again name =>
    match dentry_rcu_get s name with
    | some d => some (goto s t (.found name d))
    | none => some (goto s t .idle)
  | .asking name d => some (ask answer s t name d)
  | .freeing d => some (dentry_free s t d)

inductive Action (T : Type) where
  /-- `path_rcu_step` with this name: `dentry_rcu_get`, and `dentry_lookup` if that finds nothing. -/
  | start (t : T) (name : String)
  | advance (t : T)
  /-- The dentry that a lookup has yielded is dropped. -/
  | drop (t : T)

def step (answer : String → Answer) (s : System T) : Action T → Option (System T)
  | .start t name =>
    if s.place t = .idle then
      match dentry_rcu_get s name with
      | some d => some (goto s t (.found name d))
      | none => some (goto s t (.lookup name))
    else none
  | .advance t => advance answer s t
  | .drop t =>
    match s.place t with
    | .done _ d => some (unref s t d)
    | _ => none

/-! ## What lookups are for -/

/-- At most one live dentry for a name is in the map. -/
def Unique (s : System T) : Prop :=
  ∀ d ∈ s.map, ∀ e ∈ s.map, 0 < (s.dentry d).ref → 0 < (s.dentry e).ref →
    (s.dentry d).name = (s.dentry e).name → d = e

/-- A lookup of a name that exists yields a dentry of that name with its vnode. -/
structure Right (answer : String → Answer) (s : System T) : Prop where
  positive : ∀ t name d v, s.place t = .done name d → answer name = .positive v →
    (s.dentry d).name = name ∧ (s.dentry d).vnode = some v
  unique : Unique s

/-- A search for `name` does not return a dentry about which the file system has not been asked. -/
def Asked (s : System T) (name : String) : Prop :=
  ∀ d ∈ dentry_rcu_get s name, ∀ u, s.place u ≠ .asking name d

/-- Every search meets `Asked`. -/
def Settled (s : System T) : Action T → Prop
  | .start _ name => Asked s name
  | .advance t =>
    match s.place t with
    | .lookup name | .again name => Asked s name
    | _ => True
  | .drop _ => True

section
variable [Fintype T]

instance (s : System T) (name : String) : Decidable (Asked s name) :=
  inferInstanceAs (Decidable (∀ d ∈ dentry_rcu_get s name, ∀ u, s.place u ≠ .asking name d))

instance (s : System T) : ∀ a, Decidable (Settled s a)
  | .start _ name => inferInstanceAs (Decidable (Asked s name))
  | .advance t =>
    match h : s.place t with
    | .lookup name => decidable_of_iff (Asked s name) (by simp only [Settled, h])
    | .again name => decidable_of_iff (Asked s name) (by simp only [Settled, h])
    | .idle | .found _ _ | .tried _ _ | .create _ | .asking _ _ | .done _ _ | .freeing _ =>
      .isTrue (by simp only [Settled, h])
  | .drop _ => .isTrue trivial

end

/-! ## What one step can do -/

/-- The steps, one case for each kind. -/
inductive Moves (answer : String → Answer) (s : System T) : Action T → System T → Prop where
  /-- A search finds nothing. -/
  | pass {a} (t : T) (p : Place) (hold : ∀ d, (s.place t).holds d = false)
      (hp : p = .idle ∨ ∃ name, p = .lookup name ∨ p = .create name) : Moves answer s a (goto s t p)
  /-- A search finds a dentry. -/
  | hit {a} (t : T) (p : Place) (name : String) (d : Nat) (hold : ∀ d, (s.place t).holds d = false)
      (hget : dentry_rcu_get s name = some d) (hp : p = .found name d ∨ p = .tried name d)
      (hasked : Settled s a → Asked s name) : Moves answer s a (goto s t p)
  | refTry {a} (t : T) (name : String) (d : Nat) (fail : Place)
      (hp : (s.place t = .found name d ∧ fail = .idle) ∨ (s.place t = .tried name d ∧ fail = .create name)) :
      Moves answer s a (ref_try s t name d fail)
  | new {a} (t : T) (name : String) (hp : s.place t = .create name) : Moves answer s a (dentry_new s t name)
  | ask {a} (t : T) (name : String) (d : Nat) (hp : s.place t = .asking name d) :
      Moves answer s a (ask answer s t name d)
  | free {a} (t : T) (d : Nat) (hp : s.place t = .freeing d) : Moves answer s a (dentry_free s t d)
  | drop {a} (t : T) (name : String) (d : Nat) (hp : s.place t = .done name d) : Moves answer s a (unref s t d)

theorem step_moves {answer : String → Answer} {s s' : System T} {a : Action T} (hs : step answer s a = some s') :
    Moves answer s a s' := by
  cases a <;> simp only [step, advance] at hs
  case start t name =>
    split_ifs at hs with hp
    have hold : ∀ d, (s.place t).holds d = false := fun d => by rw [hp]; rfl
    split at hs <;> rw [← Option.some.inj hs]
    · next d hd => exact .hit t _ name d hold hd (.inl rfl) id
    · exact .pass t _ hold (.inr ⟨name, .inl rfl⟩)
  case advance t =>
    split at hs
    · simp at hs
    · simp at hs
    · next name d hp =>
      cases hs
      exact .refTry t name d _ (.inl ⟨hp, rfl⟩)
    · next name hp =>
      have hold : ∀ d, (s.place t).holds d = false := fun d => by rw [hp]; rfl
      split at hs <;> rw [← Option.some.inj hs]
      · next d hd => exact .hit t _ name d hold hd (.inr rfl) fun h => by simpa only [Settled, hp] using h
      · exact .pass t _ hold (.inr ⟨name, .inr rfl⟩)
    · next name d hp =>
      cases hs
      exact .refTry t name d _ (.inr ⟨hp, rfl⟩)
    · next name hp =>
      cases hs
      exact .new t name hp
    · next name hp =>
      have hold : ∀ d, (s.place t).holds d = false := fun d => by rw [hp]; rfl
      split at hs <;> rw [← Option.some.inj hs]
      · next d hd => exact .hit t _ name d hold hd (.inl rfl) fun h => by simpa only [Settled, hp] using h
      · exact .pass t _ hold (.inl rfl)
    · next name d hp =>
      cases hs
      exact .ask t name d hp
    · next d hp =>
      cases hs
      exact .free t d hp
  case drop t =>
    split at hs
    · next name d hp =>
      cases hs
      exact .drop t name d hp
    · simp at hs

/-! ## What one step does to the dentries -/

/-- What the place of a thread says about the dentries. -/
def Fits (s : System T) : Place → Prop
  | .found name d | .tried name d | .asking name d | .done name d => d < s.fresh ∧ (s.dentry d).name = name
  | .freeing d => d < s.fresh ∧ (s.dentry d).ref = 0
  | _ => True

/-- What every step keeps of the dentries there are: their names, and that they are dead. -/
structure Keeps (s s' : System T) : Prop where
  fresh : s.fresh ≤ s'.fresh
  name : ∀ d < s.fresh, (s'.dentry d).name = (s.dentry d).name
  dead : ∀ d < s.fresh, (s.dentry d).ref = 0 → (s'.dentry d).ref = 0

section
variable {T : Type} {s s' : System T} {p : Place} {name : String} {d : Nat}

@[simp] theorem setDentry_self {x : dentry_t} : (setDentry s d x).dentry d = x := update_self ..

theorem setDentry_of_ne {x : dentry_t} {e : Nat} (h : e ≠ d) : (setDentry s d x).dentry e = s.dentry e :=
  update_of_ne h ..

theorem mem_of_rcu_get (h : dentry_rcu_get s name = some d) : d ∈ s.map ∧ (s.dentry d).name = name :=
  ⟨mem_of_find?_eq_some h, by simpa using find?_some h⟩

theorem Fits.keep (hp : Fits s p) (h : Keeps s s') : Fits s' p := by
  cases p with
  | found name d | tried name d | asking name d | done name d =>
    exact ⟨hp.1.trans_le h.fresh, (h.name d hp.1).trans hp.2⟩
  | freeing d => exact ⟨hp.1.trans_le h.fresh, h.dead d hp.1 hp.2⟩
  | idle | lookup name | create name | again name => trivial

theorem Fits.lt_of_holds (hp : Fits s p) (hd : p.holds d = true) : d < s.fresh := by
  cases p with
  | asking name e | done name e =>
    obtain rfl : e = d := by simpa using hd
    exact hp.1
  | _ => simp at hd

theorem Fits.lt_of_got (hp : Fits s p) (hd : p.got = some (name, d)) : d < s.fresh := by
  cases p with
  | found n e | tried n e | done n e =>
    obtain ⟨rfl, rfl⟩ : n = name ∧ e = d := by simpa using hd
    exact hp.1
  | _ => simp at hd

theorem Keeps.refl : Keeps s s := ⟨Nat.le_refl _, fun _ _ => rfl, fun _ _ h => h⟩

theorem Keeps.live (h : Keeps s s') (hd : d < s.fresh) (hlive : 0 < (s'.dentry d).ref) : 0 < (s.dentry d).ref := by
  by_contra h0
  have := h.dead d hd (by omega)
  omega

/-- The count and the vnode of a dentry change, and a dead one is not brought back to life. -/
theorem keeps_setDentry (ref : Nat) (vnode : Option Nat) (hdead : (s.dentry d).ref = 0 → ref = 0) :
    Keeps s (setDentry s d { s.dentry d with ref := ref, vnode := vnode }) where
  fresh := Nat.le_refl _
  name e _ := by
    by_cases hed : e = d
    · subst hed
      rw [setDentry_self]
    · rw [setDentry_of_ne hed]
  dead e _ he := by
    by_cases hed : e = d
    · subst hed
      rw [setDentry_self]
      exact hdead he
    · rw [setDentry_of_ne hed]
      exact he

theorem Unique.keep (hu : Unique s) (hm : ∀ d ∈ s.map, d < s.fresh) (hk : Keeps s s')
    (hsub : ∀ d ∈ s'.map, d ∈ s.map) : Unique s' := by
  intro d hd e he hdr her hname
  have hdf := hm d (hsub d hd)
  have hef := hm e (hsub e he)
  rw [hk.name d hdf, hk.name e hef] at hname
  exact hu d (hsub d hd) e (hsub e he) (hk.live hdf hdr) (hk.live hef her) hname

theorem unique_new (hu : Unique s) (hm : ∀ d ∈ s.map, d < s.fresh) (hex : exists_live s name = false) :
    Unique { setDentry s s.fresh { name := name, ref := 1, vnode := none } with
      map := s.fresh :: s.map, fresh := s.fresh + 1 } := by
  have hold : ∀ x ∈ s.map, (setDentry s s.fresh { name := name, ref := 1, vnode := none }).dentry x = s.dentry x :=
    fun x hx => setDentry_of_ne (hm x hx).ne
  have hno : ∀ x ∈ s.map, 0 < (s.dentry x).ref → (s.dentry x).name ≠ name := by
    intro x hx hxr hxn
    have := any_eq_false.1 hex x hx
    simp [hxn, hxr] at this
  intro d hd e he hdr her hname
  rcases mem_cons.1 hd with rfl | hd <;> rcases mem_cons.1 he with rfl | he
  · rfl
  · simp only [setDentry_self, hold e he] at hname her
    exact absurd hname.symm (hno e he her)
  · simp only [setDentry_self, hold d hd] at hname hdr
    exact absurd hname (hno d hd hdr)
  · simp only [hold d hd, hold e he] at hname hdr her
    exact hu d hd e he hdr her hname

end

/-! ## What holds on every run -/

variable [Fintype T] {W : Prop} {answer : String → Answer} {s s' : System T} {t : T} {p : Place} {name : String} {d : Nat}

/-- The counts are right, and what a thread has got from the map is a dentry of the name it looks for. -/
structure Base (s : System T) : Prop where
  counted : ∀ d, (s.dentry d).ref = tally (Place.holds d) s.place
  mapped : ∀ d ∈ s.map, d < s.fresh
  unique : Unique s
  fits : ∀ t, Fits s (s.place t)

omit [DecidableEq T] in
theorem Base.unheld (h : Base s) (hd : s.fresh ≤ d) : (s.dentry d).ref = 0 := by
  rw [h.counted]
  by_contra hne
  obtain ⟨u, hu⟩ := Finset.card_pos.1 (Nat.pos_of_ne_zero hne)
  have := (h.fits u).lt_of_holds (Finset.mem_filter.1 hu).2
  omega

omit [DecidableEq T] in
theorem Base.held (h : Base s) (hp : (s.place t).holds d = true) : 0 < (s.dentry d).ref := by
  rw [h.counted]
  exact tally_pos hp

omit [DecidableEq T] in
theorem base_init : Base (init : System T) where
  counted d := by simp [init, tally]
  mapped d hd := by simp [init] at hd
  unique d hd := by simp [init] at hd
  fits t := trivial

/-! ## Lookups that come after the answer -/

/-- The dentry says what the file system answers, if `W` holds: the searches wait for the answer. -/
def Told (W : Prop) (answer : String → Answer) (s : System T) (d : Nat) : Prop :=
  W → ∀ v, answer (s.dentry d).name = .positive v → (s.dentry d).vnode = some v

structure Inv (W : Prop) (answer : String → Answer) (s : System T) : Prop extends Base s where
  /-- A live dentry is told, unless its creator has still to ask. -/
  told : ∀ d < s.fresh, 0 < (s.dentry d).ref → Told W answer s d ∨ ∃ t, s.place t = .asking (s.dentry d).name d
  /-- What a thread has got is told while it lives. -/
  seen : ∀ t name d, (s.place t).got = some (name, d) → 0 < (s.dentry d).ref → Told W answer s d

omit [DecidableEq T] in
theorem inv_init : Inv W answer (init : System T) where
  toBase := base_init
  told d hd := absurd hd (Nat.not_lt_zero d)
  seen t name d h := by simp [init] at h

/-- A thread goes on, after a change of the dentries that takes and drops its references
and leaves the told dentries told. -/
theorem Inv.next (h : Inv W answer s) (hk : Keeps s s') (hplace : s'.place = s.place)
    (href : ∀ d, (s'.dentry d).ref + ((s.place t).holds d).toNat = (s.dentry d).ref + (p.holds d).toNat)
    (hmap : ∀ d ∈ s'.map, d < s'.fresh) (hu : Unique s') (hp : Fits s' p)
    (hkeep : ∀ e < s.fresh, 0 < (s'.dentry e).ref → Told W answer s e → Told W answer s' e)
    (hnew : ∀ e, s.fresh ≤ e → e < s'.fresh → 0 < (s'.dentry e).ref → p = .asking (s'.dentry e).name e)
    (hlost : ∀ name e, s.place t = .asking name e → 0 < (s'.dentry e).ref → Told W answer s' e)
    (hgot : ∀ name e, p.got = some (name, e) → 0 < (s'.dentry e).ref → Told W answer s' e) :
    Inv W answer (goto s' t p) where
  counted d := by
    have htally := tally_update (Place.holds d) s.place t p
    have := href d
    rw [h.counted d] at this
    simp only [goto, hplace]
    omega
  mapped := hmap
  unique := hu
  fits u := by
    have hfits : Fits s' (update s.place t p u) := by
      by_cases hut : u = t
      · subst hut
        rwa [update_self]
      · rw [update_of_ne hut]
        exact (h.fits u).keep hk
    simp only [goto, hplace]
    exact hfits.keep { Keeps.refl with }
  told d hd hlive := by
    by_cases hold : d < s.fresh
    · rcases h.told d hold (hk.live hold hlive) with htold | ⟨u, hu⟩
      · exact .inl (hkeep d hold hlive htold)
      · by_cases hut : u = t
        · subst hut
          exact .inl (hlost _ d hu hlive)
        · refine .inr ⟨u, ?_⟩
          simp only [goto, hplace, update_of_ne hut, hk.name d hold, hu]
    · exact .inr ⟨t, by simp only [goto, update_self]; exact hnew d (Nat.le_of_not_lt hold) hd hlive⟩
  seen u name d hu hlive := by
    by_cases hut : u = t
    · subst hut
      rw [show (goto s' u p).place u = p from update_self ..] at hu
      exact hgot name d hu hlive
    · rw [show (goto s' t p).place u = s.place u by simp only [goto, hplace, update_of_ne hut]] at hu
      have hlt := (h.fits u).lt_of_got hu
      exact hkeep d hlt hlive (h.seen u name d hu (hk.live hlt hlive))

theorem Inv.goto (h : Inv W answer s) (hold : ∀ d, (s.place t).holds d = p.holds d) (hp : Fits s p)
    (hlost : ∀ name e, s.place t = .asking name e → Told W answer s e)
    (hgot : ∀ name e, p.got = some (name, e) → 0 < (s.dentry e).ref → Told W answer s e) : Inv W answer (goto s t p) :=
  h.next .refl rfl (fun d => by rw [hold d]) h.mapped h.unique hp (fun _ _ _ => id)
    (fun _ hle hlt => absurd hlt (Nat.not_lt_of_le hle)) (fun name e he _ => hlost name e he) hgot

theorem Inv.change (h : Inv W answer s) {ref : Nat} {vnode : Option Nat}
    (hs : s' = setDentry s d { s.dentry d with ref, vnode }) (hdead : (s.dentry d).ref = 0 → ref = 0)
    (href : ref + ((s.place t).holds d).toNat = (s.dentry d).ref + (p.holds d).toNat)
    (hold : ∀ e ≠ d, (s.place t).holds e = p.holds e) (hp : Keeps s s' → Fits s' p)
    (hd : Told W answer s d → Told W answer s' d) (hlost : ∀ name e, s.place t = .asking name e → Told W answer s' e)
    (hgot : ∀ name e, p.got = some (name, e) → Told W answer s' e) : Inv W answer (Lookup.goto s' t p) := by
  subst hs
  have hk := keeps_setDentry ref vnode hdead
  refine h.next hk rfl (fun e => ?_) h.mapped (h.unique.keep h.mapped hk fun _ => id) (hp hk) (fun e _ _ htold => ?_)
    (fun _ hle hlt => absurd hlt (Nat.not_lt_of_le hle)) (fun name e he _ => hlost name e he)
    fun name e he _ => hgot name e he
  · by_cases hed : e = d
    · subst hed
      rw [setDentry_self]
      exact href
    · rw [setDentry_of_ne hed, hold e hed]
  · by_cases hed : e = d
    · exact hed ▸ hd (hed ▸ htold)
    · intro hw v
      simpa only [setDentry_of_ne hed] using htold hw v

omit [DecidableEq T] [Fintype T] in
theorem ne_asking (hold : ∀ d, (s.place t).holds d = false) (name : String) (d : Nat) :
    s.place t ≠ .asking name d := by
  intro h
  have := hold d
  simp [h] at this

omit [DecidableEq T] [Fintype T] in
theorem Told.setRef {e : Nat} (ref : Nat) (h : Told W answer s e) :
    Told W answer (setDentry s d { s.dentry d with ref := ref }) e := by
  intro hw v
  by_cases hed : e = d
  · subst hed
    simpa using h hw v
  · simpa [setDentry_of_ne hed] using h hw v

section
variable (h : Inv W answer s)
include h

theorem inv_unref (hd : ∀ e, (s.place t).holds e = (d == e))
    (hlost : ∀ name e, s.place t = .asking name e → Told W answer s e) : Inv W answer (unref s t d) := by
  have hlive : 0 < (s.dentry d).ref := h.held (by rw [hd d]; exact beq_self_eq_true d)
  have hlt : d < s.fresh := (h.fits t).lt_of_holds (by rw [hd d]; exact beq_self_eq_true d)
  have hq : ∀ e, (if (s.dentry d).ref = 1 then Place.freeing d else .idle).holds e = false := by
    intro e
    split_ifs <;> rfl
  refine h.change rfl (fun h0 => by rw [h0]) ?_ (fun e hed => ?_) (fun _ => ?_) (fun htold => htold.setRef _)
    (fun name e he => (hlost name e he).setRef _) fun name e he => ?_
  · rw [hd, hq]
    simp
    omega
  · rw [hd, hq]
    simpa using Ne.symm hed
  · split_ifs with h1
    · exact ⟨hlt, by simp [h1]⟩
    · trivial
  · split_ifs at he <;> simp at he

theorem inv_ref_try {fail : Place} (hp : (s.place t).got = some (name, d))
    (hfit : Fits s (.done name d)) (hold : ∀ d, (s.place t).holds d = false) (hf : Fits s fail)
    (hfail : ∀ d, fail.holds d = false) (hgot : fail.got = none) : Inv W answer (ref_try s t name d fail) := by
  have hlost : ∀ name e, s.place t = .asking name e → Told W answer s e := fun name e he => absurd he (ne_asking hold name e)
  rw [ref_try]
  split_ifs with h0
  · exact h.goto (fun d => by rw [hold, hfail]) hf hlost fun name e he => by rw [hgot] at he; cases he
  · refine h.change rfl (fun h => absurd h h0) ?_ (fun e hed => ?_) (fun hk => hfit.keep hk) (fun htold => htold.setRef _)
      (fun name e he => (hlost name e he).setRef _) fun n e he => ?_
    · rw [hold]
      simp
    · rw [hold]
      simpa using Ne.symm hed
    · obtain ⟨rfl, rfl⟩ : name = n ∧ d = e := by simpa using he
      exact (h.seen t name d hp (Nat.pos_of_ne_zero h0)).setRef _

theorem inv_new (hold : ∀ d, (s.place t).holds d = false) : Inv W answer (dentry_new s t name) := by
  rw [dentry_new]
  split_ifs with hex
  · refine h.next ⟨Nat.le_succ _, fun _ _ => rfl, fun _ _ h => h⟩ rfl (fun d => by rw [hold]; rfl)
      (fun d hd => (h.mapped d hd).trans (Nat.lt_succ_self _)) h.unique trivial (fun _ _ _ => id) ?_
      (fun name e he => absurd he (ne_asking hold name e)) fun name e he => by simp at he
    intro e hle _ hlive
    rw [show (s.dentry e).ref = 0 from h.unheld hle] at hlive
    exact absurd hlive (Nat.lt_irrefl 0)
  · have hne : ∀ d < s.fresh, d ≠ s.fresh := fun d hd => hd.ne
    refine h.next ⟨Nat.le_succ _, ?_, ?_⟩ rfl (fun d => ?_) ?_ (unique_new h.unique h.mapped (Bool.eq_false_iff.2 hex))
      ⟨Nat.lt_succ_self _, ?_⟩ ?_ ?_ (fun name e he => absurd he (ne_asking hold name e))
      fun name e he => by simp at he
    · intro d hd
      simp only [setDentry_of_ne (hne d hd)]
    · intro d hd h0
      simpa only [setDentry_of_ne (hne d hd)] using h0
    · rw [hold]
      by_cases hd : d = s.fresh
      · subst hd
        simp [h.unheld]
      · simp [setDentry_of_ne hd, Ne.symm hd]
    · intro d hd
      rcases mem_cons.1 hd with rfl | hd
      · exact Nat.lt_succ_self _
      · exact (h.mapped d hd).trans (Nat.lt_succ_self _)
    · simp only [setDentry_self]
    · intro e he _ htold hw v
      simpa only [setDentry_of_ne (hne e he)] using htold hw v
    · intro e hle hlt _
      obtain rfl : e = s.fresh := by
        simp only at hlt
        omega
      simp only [setDentry_self]

theorem inv_ask (hp : s.place t = .asking name d) : Inv W answer (ask answer s t name d) := by
  have hd : ∀ e, (s.place t).holds e = (d == e) := fun e => by rw [hp]; rfl
  have hfit : Fits s (.asking name d) := hp ▸ h.fits t
  -- The thread asks about `d` only, and that is what it gets
  have hasks : ∀ {P : Nat → Prop}, P d → ∀ n e, s.place t = .asking n e → P e := by
    intro P hP n e he
    rw [hp] at he
    exact (Place.asking.inj he).2 ▸ hP
  have hgets : ∀ {P : Nat → Prop}, P d → ∀ n e, (Place.done name d).got = some (n, e) → P e := by
    intro P hP n e he
    obtain ⟨-, rfl⟩ : name = n ∧ d = e := by simpa using he
    exact hP
  rw [ask]
  split
  · next v hv =>
    have hnow : Told W answer (setDentry s d { s.dentry d with vnode := some v }) d := by
      intro _ w hw
      simpa [hfit.2, hv] using hw
    refine h.change rfl id ?_ (fun e _ => hd e) (fun hk => Fits.keep hfit hk) (fun _ => hnow) (hasks hnow) (hgets hnow)
    rw [hd]
    rfl
  · next hv =>
    have hnow : Told W answer s d := fun _ w hw => by simp [hfit.2, hv] at hw
    exact h.goto hd hfit (hasks hnow) fun n e he _ => hgets hnow n e he
  · next hv => exact inv_unref h hd (hasks fun _ w hw => by simp [hfit.2, hv] at hw)

theorem inv_free (hp : s.place t = .freeing d) : Inv W answer (dentry_free s t d) := by
  have hk := keeps_setDentry (s := s) (d := d) (s.dentry d).ref none id
  have hk' : Keeps s { setDentry s d { s.dentry d with vnode := none } with map := s.map.erase d } :=
    ⟨hk.fresh, hk.name, hk.dead⟩
  have hfit : Fits s (.freeing d) := hp ▸ h.fits t
  refine h.next hk' rfl (fun e => ?_) (fun e he => h.mapped e (mem_of_mem_erase he))
    (h.unique.keep h.mapped hk' fun e => mem_of_mem_erase) trivial ?_
    (fun e hle hlt => absurd hlt (Nat.not_lt_of_le hle)) (fun n e he => by simp [hp] at he)
    fun n e he => by simp at he
  · rw [hp]
    by_cases hed : e = d
    · subst hed
      simp
    · simp [setDentry_of_ne hed]
  · intro e _ hlive htold
    by_cases hed : e = d
    · subst hed
      simp [hfit.2] at hlive
    · intro hw v
      simpa only [setDentry_of_ne hed] using htold hw v

theorem inv_step {a : Action T} (ha : W → Settled s a) (hs : step answer s a = some s') : Inv W answer s' := by
  cases step_moves hs with
  | pass t p hold hp =>
    refine h.goto (fun d => ?_) ?_ (fun n e he => absurd he (ne_asking hold n e)) fun n e he => ?_
    · rw [hold]
      rcases hp with rfl | ⟨name, rfl | rfl⟩ <;> rfl
    · rcases hp with rfl | ⟨name, rfl | rfl⟩ <;> trivial
    · rcases hp with rfl | ⟨name, rfl | rfl⟩ <;> simp at he
  | hit t p name d hold hget hp hasked =>
    obtain ⟨hmem, hname⟩ := mem_of_rcu_get hget
    refine h.goto (fun d => ?_) ?_ (fun n e he => absurd he (ne_asking hold n e)) fun n e he hlive => ?_
    · rw [hold]
      rcases hp with rfl | rfl <;> rfl
    · rcases hp with rfl | rfl <;> exact ⟨h.mapped d hmem, hname⟩
    · obtain ⟨rfl, rfl⟩ : name = n ∧ d = e := by rcases hp with rfl | rfl <;> simpa using he
      rcases h.told d (h.mapped d hmem) hlive with htold | ⟨u, hu⟩
      · exact htold
      · intro hw
        rw [hname] at hu
        exact absurd hu (hasked (ha hw) d hget u)
  | refTry t name d fail hp =>
    have hfit := h.fits t
    rcases hp with ⟨hp, rfl⟩ | ⟨hp, rfl⟩ <;> rw [hp] at hfit <;>
      exact inv_ref_try h (by rw [hp]; rfl) hfit (fun d => by rw [hp]; rfl) trivial (fun _ => rfl) rfl
  | new t name hp => exact inv_new h fun d => by rw [hp]; rfl
  | ask t name d hp => exact inv_ask h hp
  | free t d hp => exact inv_free h hp
  | drop t name d hp =>
    exact inv_unref h (fun e => by rw [hp]; rfl) fun n e he => by simp [hp] at he

end

theorem inv_always (answer : String → Answer) (acts : List (Action T)) :
    Always (step answer) (Inv False answer) (init : System T) acts :=
  always_of_step (fun _ _ _ hi hs => inv_step hi False.elim hs) inv_init acts

/-- `ref` has 32 bits in the source, and there are fewer threads. -/
theorem ref_le_card (answer : String → Answer) (acts : List (Action T)) :
    Always (step answer) (fun s => ∀ d, (s.dentry d).ref ≤ Fintype.card T) (init : System T) acts := by
  refine (inv_always answer acts).mono fun s hi d => ?_
  rw [hi.counted]
  exact Finset.card_le_univ _

omit [DecidableEq T] in
theorem Inv.right (h : Inv True answer s) : Right answer s where
  positive t name d v hp hv := by
    have hfit : Fits s (.done name d) := hp ▸ h.fits t
    have hlive : 0 < (s.dentry d).ref := h.held (t := t) (by rw [hp]; exact beq_self_eq_true d)
    have htold := h.seen t name d (by rw [hp]; rfl) hlive
    exact ⟨hfit.2, htold trivial v (by rw [hfit.2]; exact hv)⟩
  unique := h.unique

/-- There is at most one live dentry of a name on every run, and lookups are right on every run whose
searches find no dentry before its answer. -/
theorem lookup_right (answer : String → Answer) (acts : List (Action T)) :
    Always (step answer) Unique (init : System T) acts ∧
      (Along (step answer) Settled (init : System T) acts →
        Always (step answer) (Right answer) (init : System T) acts) := by
  constructor
  · exact (inv_always answer acts).mono fun _ hi => hi.unique
  · intro h
    exact (h.always (fun _ _ _ hi ha hs => inv_step hi (fun _ => ha) hs) inv_init).mono fun _ hi => hi.right

/-- Only the name `"a"` exists. -/
def onlyA (name : String) : Answer := if name = "a" then .positive 7 else .negative

/-- A thread looks `"a"` up, another one finds what it has left in the map, and a
third name is looked up in between. -/
def laterLookup : List (Action (Fin 2)) :=
  [.start 0 "a", .advance 0, .advance 0, .start 1 "b", .advance 1, .advance 0, .advance 1, .advance 1, .drop 1,
    .advance 1, .start 1 "a", .advance 1, .drop 0]

theorem laterLookup_right : Along (step onlyA) Settled init laterLookup ∧
    Always (step onlyA) (Right onlyA) init laterLookup :=
  ⟨by decide +kernel, (lookup_right onlyA laterLookup).2 (by decide +kernel)⟩

/-- The second thread finds the dentry before the first has asked the file system. -/
def earlyLookup : List (Action (Fin 2)) :=
  [.start 0 "a", .advance 0, .advance 0, .start 1 "a", .advance 1]

theorem earlyLookup_not_right : ¬ Always (step onlyA) (Right onlyA) init earlyLookup := by
  refine not_always (fun s => s.place 1 = .done "a" 0 ∧ (s.dentry 0).vnode = none) (by decide +kernel) ?_
  rintro s ⟨hplace, hvnode⟩ h
  have := (h.positive 1 "a" 0 7 hplace rfl).2
  rw [hvnode] at this
  exact absurd this (Option.some_ne_none _).symm

end Patchwork.Lookup
