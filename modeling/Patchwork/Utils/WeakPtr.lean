import Patchwork.Lib.Runs
import Patchwork.Lib.Agents
/-!
# Weak pointers

`ref.h` for one object and any number of weak pointers to it, used by any number of CPUs.
Atomic operations and locked sections are single steps, but the section of the object's
lock in `ref_dec` contains a section of each weak pointer's lock, so it is cut into those;
the same goes for `weak_ptr_get`, which counts the reference while it has the lock.

`weak_ptr_get` hands out only an object whose count has not reached zero, and a callback
runs at most once and not after `weak_ptr_clear` has returned. But `ref_dec` goes on to
write into the weak pointer whose callback it has called and to read its successor from
it, and it reads the successor after it has released the pointer's lock: then the owner
can have cleared the pointer, which returns at once because `ref` is `NULL` already.

A weak pointer is set once; memory that is used again is another weak pointer here.
-/

namespace Patchwork.WeakPtr

open Option Function Lib
open List hiding count

/-- What a CPU does next. -/
inductive Place (W : Type) where
  | out
  /-- `ref_inc_try`, inside `weak_ptr_get` of a weak pointer or on its own. -/
  | tryLoad (wp : Option W) | tryCas (wp : Option W) (count : Nat)
  /-- `ref_dec` after the count has reached zero. The walk stands before the `i`-th entry
  or has released its lock. -/
  | decLock | walk (i : Nat) | next (i : Nat) | cleanup
  | setInit (wp : W) (callback : Bool) | setPush (wp : W)
  | getLock (wp : W)
  | clearLock (wp : W)
deriving DecidableEq

inductive Stage (T : Type) where
  /-- Not in use yet. -/
  | unset
  /-- `weak_ptr_set` of the CPU has not returned. -/
  | setting (t : T)
  | ready
deriving DecidableEq

structure System (T W : Type) where
  /-- `ref_t`. -/
  count : Nat
  refLock : Option T
  weakRefs : List W
  /-- `weak_ptr_t`: whether `ref` is the object or `NULL`, and whether there is a callback. -/
  ref : W → Bool
  callback : W → Bool
  lock : W → Option T
  place : T → Place W
  /-- The CPUs that hold references, each as often as it has some. -/
  strong : List T
  /-- The CPU whose `ref_dec` has made the count zero. -/
  zeroBy : Option T
  /-- The cleanup function of the object has run. -/
  freed : Bool
  stage : W → Stage T
  /-- `weak_ptr_clear` has returned. -/
  cleared : W → Bool
  /-- How often the callback has run. -/
  called : W → Nat

inductive Action (T W : Type) where
  | ref_inc (t : T)
  | ref_inc_try (t : T)
  | ref_dec (t : T)
  /-- A reference is left to another CPU. -/
  | pass (t u : T)
  | weak_ptr_set (t : T) (wp : W) (callback : Bool)
  | weak_ptr_get (t : T) (wp : W)
  | weak_ptr_clear (t : T) (wp : W)
  /-- The next step of the CPU. -/
  | go (t : T)
  /-- `atomic_compare_exchange_weak` fails for no reason. -/
  | spurious (t : T)

variable {T W : Type}

/-- `ref_init` by the CPU `t`. -/
def init (t : T) : System T W :=
  { count := 1, refLock := none, weakRefs := [], ref := fun _ => false, callback := fun _ => false
    lock := fun _ => none, place := fun _ => .out, strong := [t], zeroBy := none, freed := false
    stage := fun _ => .unset, cleared := fun _ => false, called := fun _ => 0 }

/-! ## Steps -/

section
variable [DecidableEq T] [DecidableEq W]

def System.goto (s : System T W) (t : T) (p : Place W) : System T W :=
  { s with place := update s.place t p }

/-- `atomic_uint32_t`. -/
def COUNT_WRAP : Nat := 2 ^ 32

/-- The count goes up for a reference of `t`. -/
def System.take (s : System T W) (t : T) : System T W :=
  { s with count := (s.count + 1) % COUNT_WRAP, strong := t :: s.strong }

/-- The fetch-and-subtract of `ref_dec`. -/
def ref_dec (s : System T W) (t : T) : System T W :=
  let count := (s.count + COUNT_WRAP - 1) % COUNT_WRAP
  let strong := s.strong.erase t
  if 1 < s.count then { s with count := count, strong := strong }
  else { s.goto t .decLock with count := count, strong := strong, zeroBy := some t }

/-- `ref_inc_try` returns; in `weak_ptr_get` the lock is released. -/
def System.leave (s : System T W) (t : T) : Option W → System T W
  | none => s.goto t .out
  | some wp => { s.goto t .out with lock := update s.lock wp none }

/-- The section of the lock of `wp` in the walk of `ref_dec`. -/
def visit (s : System T W) (wp : W) : System T W :=
  { s with
    called := update s.called wp (s.called wp + (s.callback wp).toNat)
    ref := update s.ref wp false }

/-- `weak_ptr_clear` returns. -/
def System.clear (s : System T W) (t : T) (wp : W) : System T W :=
  { s.goto t .out with cleared := update s.cleared wp true }

/-- The part of `weak_ptr_clear` with the lock of the object. -/
def unlink (s : System T W) (wp : W) : System T W :=
  { s with
    weakRefs := s.weakRefs.erase wp
    ref := update s.ref wp false
    callback := update s.callback wp false }

def advance (s : System T W) (t : T) : Option (System T W) :=
  match s.place t with
  | .out => none
  | .tryLoad wp => some (s.goto t (.tryCas wp s.count))
  | .tryCas wp count =>
    if count = 0 then some (s.leave t wp)
    else if s.count = count then some ((s.take t).leave t wp)
    else some (s.goto t (.tryCas wp s.count))
  | .decLock => if s.refLock = none then some { s.goto t (.walk 0) with refLock := some t } else none
  | .walk i =>
    match s.weakRefs[i]? with
    | none => some { s.goto t .cleanup with refLock := none }
    | some wp => if s.lock wp = none then some ((visit s wp).goto t (.next i)) else none
  | .next i => some (s.goto t (.walk (i + 1)))
  | .cleanup => some { s.goto t .out with freed := true }
  | .setInit wp callback =>
    some { s.goto t (.setPush wp) with
      ref := update s.ref wp true
      callback := update s.callback wp callback
      lock := update s.lock wp none }
  | .setPush wp =>
    if s.refLock = none then
      some { s.goto t .out with weakRefs := s.weakRefs ++ [wp], stage := update s.stage wp .ready }
    else none
  | .getLock wp =>
    if s.lock wp = none then
      if s.ref wp then some { s.goto t (.tryLoad (some wp)) with lock := update s.lock wp (some t) }
      else some (s.goto t .out)
    else none
  | .clearLock wp =>
    if s.lock wp = none then
      if s.ref wp then
        if s.refLock = none then some ((unlink s wp).clear t wp)
        -- the object's lock is taken: once more from the start
        else some s
      else some (s.clear t wp)
    else none

def step (s : System T W) : Action T W → Option (System T W)
  | .ref_inc t => if s.place t = .out ∧ t ∈ s.strong then some (s.take t) else none
  | .ref_inc_try t => if s.place t = .out ∧ s.freed = false then some (s.goto t (.tryLoad none)) else none
  | .ref_dec t => if s.place t = .out ∧ t ∈ s.strong then some (ref_dec s t) else none
  | .pass t u => if s.place t = .out ∧ t ∈ s.strong then some { s with strong := u :: s.strong.erase t } else none
  | .weak_ptr_set t wp callback =>
    if s.place t = .out ∧ t ∈ s.strong ∧ s.stage wp = .unset then
      some { s.goto t (.setInit wp callback) with stage := update s.stage wp (.setting t) }
    else none
  | .weak_ptr_get t wp =>
    if s.place t = .out ∧ s.stage wp = .ready ∧ s.cleared wp = false then some (s.goto t (.getLock wp)) else none
  | .weak_ptr_clear t wp =>
    if s.place t = .out ∧ s.stage wp = .ready ∧ s.cleared wp = false then some (s.goto t (.clearLock wp)) else none
  | .go t => advance s t
  | .spurious t =>
    match s.place t with
    | .tryCas wp count => if count = 0 then none else some (s.goto t (.tryCas wp s.count))
    | _ => none

/-! ## What should hold -/

structure Safe (s : System T W) : Prop where
  /-- Who has a reference, from `weak_ptr_get` or else, has one to an object whose count never was zero. -/
  holders : ∀ t ∈ s.strong, s.count ≠ 0 ∧ s.zeroBy = none ∧ s.freed = false
  once : ∀ wp, s.called wp ≤ 1
  /-- The callback that is about to run is not that of a pointer that has been cleared. -/
  not_late : ∀ t i wp, s.place t = .walk i → s.weakRefs[i]? = some wp → s.callback wp = true → s.cleared wp = false

/-- The call of the CPU is about this weak pointer. -/
def At (s : System T W) (wp : W) : Place W → Prop
  | .walk i | .next i => s.weakRefs[i]? = some wp
  | .tryLoad wp' | .tryCas wp' _ => wp' = some wp
  | .setInit wp' _ | .setPush wp' | .getLock wp' | .clearLock wp' => wp' = wp
  | .out | .decLock | .cleanup => False

/-- The CPU is in a call that has still to read or write the weak pointer. Entering a
weak pointer into the list and taking it out writes to its neighbours, too. -/
def Touches (s : System T W) (wp : W) (p : Place W) : Prop :=
  At s wp p ∨ ∃ wp', wp ∈ s.weakRefs ∧ s.refLock = none ∧
    (p = .setPush wp' ∨ p = .clearLock wp' ∧ s.ref wp' = true)

/-- The memory of the weak pointer may be freed. -/
def Gone (s : System T W) (wp : W) : Prop := s.cleared wp = true ∨ 0 < s.called wp

def Untouched (s : System T W) : Prop := ∀ t wp, Gone s wp → ¬ Touches s wp (s.place t)

/-- There are less than `2 ^ 32 - 1` references. -/
def Counted (s : System T W) (_ : Action T W) : Prop := s.count + 1 < COUNT_WRAP

instance (s : System T W) (a : Action T W) : Decidable (Counted s a) := inferInstanceAs (Decidable (_ < _))

/-- The walk comes upon no callback, and `weak_ptr_clear` returns only when no other CPU is
in a call about the pointer, the walk of `ref_dec` included. -/
def Quiet (s : System T W) : Action T W → Prop
  | .go t =>
    (∀ i wp, s.place t = .walk i → s.weakRefs[i]? = some wp → s.lock wp = none → s.callback wp = false) ∧
    (∀ wp, s.place t = .clearLock wp → s.lock wp = none → (s.ref wp = false ∨ s.refLock = none) →
      ∀ u, u ≠ t → ¬ At s wp (s.place u))
  | _ => True

end

/-! ## The invariant -/

/-- From the `k`-th entry on, the walk has not been there. -/
def Ahead (s : System T W) (k : Nat) : Prop :=
  ∀ j wp, k ≤ j → s.weakRefs[j]? = some wp → s.ref wp = true ∧ s.called wp = 0

def Behind (s : System T W) (k : Nat) : Prop := ∀ j wp, j < k → s.weakRefs[j]? = some wp → s.ref wp = false

/-- What the place of a CPU says. -/
def PlaceOk (s : System T W) (t : T) : Place W → Prop
  | .decLock => s.zeroBy = some t ∧ Ahead s 0
  | .walk i => s.zeroBy = some t ∧ s.refLock = some t ∧ Ahead s i ∧ Behind s i
  | .next i => s.zeroBy = some t ∧ s.refLock = some t ∧ Ahead s (i + 1) ∧ Behind s (i + 1)
  | .cleanup => s.zeroBy = some t ∧ ∀ wp, s.ref wp = false
  | .setInit wp _ => s.stage wp = .setting t ∧ t ∈ s.strong
  | .setPush wp => s.stage wp = .setting t ∧ t ∈ s.strong ∧ s.ref wp = true
  | .getLock wp | .clearLock wp | .tryLoad (some wp) | .tryCas (some wp) _ => s.stage wp = .ready
  | .out | .tryLoad none | .tryCas none _ => True

structure Inv (s : System T W) : Prop where
  places : ∀ t, PlaceOk s t (s.place t)
  count : s.count = s.strong.length
  zero : s.zeroBy = none ↔ s.strong ≠ []
  ahead : s.strong ≠ [] → Ahead s 0
  /-- Without the lock of the object taken, the walk has not started or is over. -/
  idle : s.refLock = none → Ahead s 0 ∨ ∀ wp, s.ref wp = false
  freed : s.freed = true → s.strong = [] ∧ ∀ wp, s.ref wp = false
  linked : ∀ wp, s.ref wp = true → wp ∈ s.weakRefs ∨ ∃ t, s.place t = .setPush wp
  ready : ∀ wp ∈ s.weakRefs, s.stage wp = .ready
  nodup : s.weakRefs.Nodup
  cleared : ∀ wp, s.cleared wp = true → s.stage wp = .ready ∧ s.ref wp = false
  once : ∀ wp, s.called wp ≤ 1 ∧ (0 < s.called wp → s.stage wp = .ready)

variable {s s' : System T W} {t u : T} {wp : W} {p : Place W}

/-- The CPU that walks is the one that has made the count zero, and then nobody has a reference. -/
theorem Inv.no_walk (h : Inv s) (ht : t ∈ s.strong) : s.zeroBy = none := h.zero.2 (ne_nil_of_mem ht)

theorem Inv.not_zeroBy (h : Inv s) (ht : t ∈ s.strong) : s.zeroBy ≠ some u := by
  rw [h.no_walk ht]
  exact nofun

theorem Inv.no_strong (h : Inv s) (hz : s.zeroBy = some t) : s.strong = [] := by
  by_contra hpos
  rw [h.zero.2 hpos] at hz
  cases hz

theorem Inv.placeOk (h : Inv s) (hpc : s.place t = p) : PlaceOk s t p := by
  rw [← hpc]
  exact h.places t

/-- A weak pointer that is being set is no other one's. -/
theorem ne_of_setting {wp' : W} (hset : s.stage wp = .setting t) (hready : s.stage wp' = .ready) : wp' ≠ wp := by
  intro heq
  rw [heq, hset] at hready
  cases hready

/-- What a step must leave alone so that the place of another CPU still says the truth. -/
structure Frame (s s' : System T W) (u : T) : Prop where
  zero : s.zeroBy = some u → s'.zeroBy = some u
  lock : s.refLock = some u → s'.refLock = some u
  strong : u ∈ s.strong → u ∈ s'.strong
  stage : ∀ wp, s.stage wp = .setting u ∨ s.stage wp = .ready → s'.stage wp = s.stage wp
  pushed : ∀ wp, s.stage wp = .setting u → s.ref wp = true → s'.ref wp = true
  ahead : s.zeroBy = some u → ∀ k, k = 0 ∨ s.refLock = some u → Ahead s k → Ahead s' k
  behind : s.zeroBy = some u → s.refLock = some u → ∀ k, Behind s k → Behind s' k
  ended : s.zeroBy = some u → (∀ wp, s.ref wp = false) → ∀ wp, s'.ref wp = false

theorem Frame.placeOk (f : Frame s s' u) (h : PlaceOk s u p) : PlaceOk s' u p := by
  cases p with
  | out => trivial
  | tryLoad wp | tryCas wp count =>
    cases wp with
    | none => trivial
    | some wp => exact (f.stage wp (.inr h)).trans h
  | decLock => exact ⟨f.zero h.1, f.ahead h.1 0 (.inl rfl) h.2⟩
  | walk i | next i =>
    obtain ⟨hz, hl, ha, hb⟩ := h
    exact ⟨f.zero hz, f.lock hl, f.ahead hz _ (.inr hl) ha, f.behind hz hl _ hb⟩
  | cleanup => exact ⟨f.zero h.1, f.ended h.1 h.2⟩
  | setInit wp callback => exact ⟨(f.stage wp (.inl h.1)).trans h.1, f.strong h.2⟩
  | setPush wp => exact ⟨(f.stage wp (.inl h.1)).trans h.1, f.strong h.2.1, f.pushed wp h.1 h.2.2⟩
  | getLock wp | clearLock wp => exact (f.stage wp (.inr h)).trans h

/-- The step leaves the weak pointers alone. -/
theorem Frame.kept {n : Nat} {r : Option T} {l : W → Option T} {f : T → Place W} {strong : List T} {c : W → Bool}
    {b : Bool} (hr : s.refLock = some u → r = some u) (hstrong : u ∈ s.strong → u ∈ strong) :
    Frame s { s with count := n, refLock := r, lock := l, place := f, strong := strong, cleared := c, freed := b } u :=
  ⟨id, hr, hstrong, fun _ _ => rfl, fun _ _ => id, fun _ _ _ => id, fun _ _ _ => id, fun _ => id⟩

/-- The step is none of the walk's, and `u` does not walk. -/
theorem Frame.of_not_zeroBy (hno : s.zeroBy ≠ some u) (hlock : s.refLock = some u → s'.refLock = some u)
    (hstrong : u ∈ s.strong → u ∈ s'.strong)
    (hstage : ∀ wp, s.stage wp = .setting u ∨ s.stage wp = .ready → s'.stage wp = s.stage wp)
    (hpushed : ∀ wp, s.stage wp = .setting u → s.ref wp = true → s'.ref wp = true) : Frame s s' u :=
  ⟨fun hz => absurd hz hno, hlock, hstrong, hstage, hpushed, fun hz => absurd hz hno, fun hz => absurd hz hno,
    fun hz => absurd hz hno⟩

theorem Inv.safe (h : Inv s) : Safe s := by
  refine ⟨fun t ht => ⟨?_, h.no_walk ht, ?_⟩, fun wp => (h.once wp).1, ?_⟩
  · rw [h.count]
    exact Nat.ne_of_gt (length_pos_of_mem ht)
  · rw [Bool.eq_false_iff]
    intro hfreed
    exact ne_nil_of_mem ht (h.freed hfreed).1
  · intro t i wp hpc hi _
    obtain ⟨-, -, hahead, -⟩ := h.placeOk hpc
    rw [Bool.eq_false_iff]
    intro hc
    have href := (hahead i wp (Nat.le_refl i) hi).1
    rw [(h.cleared wp hc).2] at href
    cases href

theorem inv_init : Inv (init t : System T W) := by
  have hahead : Ahead (init t : System T W) 0 := nofun
  exact ⟨fun _ => trivial, rfl, iff_of_true rfl (cons_ne_nil t []), fun _ => hahead, fun _ => .inl hahead, nofun,
    nofun, nofun, nodup_nil, nofun, fun _ => ⟨Nat.zero_le 1, nofun⟩⟩

/-! ## Each step keeps the invariant -/

/-- References come and go while there are some. -/
theorem inv_counts {n : Nat} {l : List T} (h : Inv s) (hpos : s.strong ≠ []) (hn : n = l.length) (hl : l ≠ [])
    (hmem : ∀ u, s.place u = .out ∨ (u ∈ s.strong → u ∈ l)) : Inv { s with count := n, strong := l } := by
  refine ⟨fun u => ?_, hn, iff_of_true (h.zero.2 hpos) hl, fun _ => h.ahead hpos, h.idle, ?_, h.linked, h.ready,
    h.nodup, h.cleared, h.once⟩
  · change PlaceOk _ u (s.place u)
    rcases hmem u with hout | hmem
    · rw [hout]
      trivial
    · exact (Frame.kept id hmem).placeOk (h.places u)
  · intro hfreed
    exact absurd (h.freed hfreed).1 hpos

theorem inv_take (h : Inv s) (hpos : s.strong ≠ []) (hc : s.count + 1 < COUNT_WRAP) : Inv (s.take t) := by
  refine inv_counts h hpos ?_ (cons_ne_nil t s.strong) fun u => .inr (mem_cons_of_mem t)
  rw [Nat.mod_eq_of_lt hc, h.count, length_cons]

theorem update_false [DecidableEq W] {f : W → Bool} (wp' : W) (hf : f wp' = false) : update f wp false wp' = false := by
  rw [update_apply]
  split
  · rfl
  · exact hf

/-- `weak_ptr_clear` takes the pointer out of the list of a lock that nobody has. -/
theorem inv_unlink [DecidableEq W] (h : Inv s) (hready : s.stage wp = .ready) (hlock : s.refLock = none) :
    Inv (unlink s wp) := by
  have hahead : Ahead s 0 → Ahead (unlink s wp) 0 := by
    intro ha j wp' _ hj
    obtain ⟨hne, hmem⟩ := h.nodup.mem_erase_iff.1 (mem_of_getElem? hj)
    obtain ⟨k, hk⟩ := mem_iff_getElem?.1 hmem
    obtain ⟨href, hcalled⟩ := ha k wp' (Nat.zero_le k) hk
    exact ⟨(update_of_ne hne ..).trans href, hcalled⟩
  refine ⟨fun u => ?_, h.count, h.zero, fun hpos => hahead (h.ahead hpos), fun _ => ?_, ?_, ?_, ?_,
    h.nodup.erase wp, ?_, h.once⟩
  · have hno : s.refLock ≠ some u := by
      rw [hlock]
      exact nofun
    have hf : Frame s (unlink s wp) u := by
      refine ⟨id, id, id, fun _ _ => rfl, ?_, ?_, fun _ hl => absurd hl hno, ?_⟩
      · exact fun wp' hset href => (update_of_ne (ne_of_setting hset hready).symm ..).trans href
      · rintro - k (rfl | hl)
        · exact hahead
        · exact absurd hl hno
      · exact fun _ hall wp' => update_false wp' (hall wp')
    exact hf.placeOk (h.places u)
  · exact (h.idle hlock).imp hahead fun hall wp' => update_false wp' (hall wp')
  · exact fun hfreed => ⟨(h.freed hfreed).1, fun wp' => update_false wp' ((h.freed hfreed).2 wp')⟩
  · intro wp' href
    obtain ⟨hwp, href⟩ := of_update href nofun
    exact (h.linked wp' href).imp_left fun hmem => h.nodup.mem_erase_iff.2 ⟨hwp, hmem⟩
  · exact fun wp' hmem => h.ready wp' (mem_of_mem_erase hmem)
  · exact fun wp' hc => ⟨(h.cleared wp' hc).1, update_false wp' (h.cleared wp' hc).2⟩

/-- The end of the walk: every weak pointer is `NULL`. -/
theorem over_of_walk {i : Nat} (h : Inv s) (hpc : s.place t = .walk i) (hi : s.weakRefs[i]? = none) (wp : W) :
    s.ref wp = false := by
  obtain ⟨hz, -, -, hbehind⟩ := h.placeOk hpc
  rw [Bool.eq_false_iff]
  intro href
  rcases h.linked wp href with hmem | ⟨u, hu⟩
  · obtain ⟨j, hj⟩ := mem_iff_getElem?.1 hmem
    have hlt : j < i := by
      have hj' := (List.getElem?_eq_some_iff.1 hj).1
      exact Nat.lt_of_lt_of_le hj' (List.getElem?_eq_none_iff.1 hi)
    rw [hbehind j wp hlt hj] at href
    cases href
  · exact h.not_zeroBy (h.placeOk hu).2.1 hz

variable [DecidableEq T]

theorem goto_self : (s.goto t p).place t = p := update_self ..

theorem goto_of_ne (hu : u ≠ t) : (s.goto t p).place u = s.place u := update_of_ne hu ..

/-- The places after a step of `t`. -/
theorem places_goto (h : Inv s) (hplace : s'.place = update s.place t p) (hp : PlaceOk s' t p)
    (hf : ∀ u, u ≠ t → Frame s s' u) (u : T) : PlaceOk s' u (s'.place u) := by
  rw [hplace]
  by_cases hu : u = t
  · subst hu
    rw [update_self]
    exact hp
  · rw [update_of_ne hu]
    exact (hf u hu).placeOk (h.places u)

section
variable {q : Place W} {l : W → Option T} (h : Inv s) (hpc : s.place t = q) (hq : ∀ wp, q ≠ .setPush wp)
include h hpc hq

/-- Nobody but `t` stops entering a weak pointer into the list. -/
theorem linked_goto (wp : W) (href : s.ref wp = true) :
    wp ∈ s.weakRefs ∨ ∃ u, (s.goto t p).place u = .setPush wp := by
  refine (h.linked wp href).imp_right fun ⟨u, hu⟩ => ⟨u, ?_⟩
  have hne : u ≠ t := by
    intro heq
    rw [heq, hpc] at hu
    exact hq wp hu
  rw [goto_of_ne hne]
  exact hu

/-- Steps that only take or release locks. -/
theorem inv_move {r : Option T} (hr : ∀ u, u ≠ t → s.refLock = some u → r = some u)
    (hidle : r = none → s.refLock = none ∨ ∀ wp, s.ref wp = false)
    (hp : PlaceOk { s.goto t p with refLock := r, lock := l } t p) :
    Inv { s.goto t p with refLock := r, lock := l } := by
  refine ⟨places_goto h rfl hp fun u hu => .kept (hr u hu) id, h.count, h.zero, h.ahead, ?_, h.freed,
    linked_goto h hpc hq, h.ready, h.nodup, h.cleared, h.once⟩
  exact fun hnone => (hidle hnone).elim h.idle .inr

/-- The lock of the object stays as it is. -/
theorem inv_goto (hp : PlaceOk s t p) : Inv { s.goto t p with lock := l } :=
  inv_move h hpc hq (fun _ _ => id) .inl ((Frame.kept id id).placeOk hp)

end

theorem inv_tryCas {o : Option W} (h : Inv s)
    (hpc : s.place t = .tryLoad o ∨ ∃ n, s.place t = .tryCas o n) : Inv (s.goto t (.tryCas o s.count)) := by
  rcases hpc with hpc | ⟨n, hpc⟩
  all_goals
    have hok := h.placeOk hpc
    refine inv_goto h hpc nofun ?_
    cases o with
    | none => trivial
    | some wp => exact hok

theorem mem_erase_or_out (hout : s.place t = .out) (u : T) :
    s.place u = .out ∨ (u ∈ s.strong → u ∈ s.strong.erase t) := by
  by_cases hu : u = t
  · exact .inl (hu ▸ hout)
  · exact .inr (mem_erase_of_ne hu).2

section
variable (h : Inv s)
include h

theorem inv_pass (hout : s.place t = .out) (ht : t ∈ s.strong) : Inv { s with strong := u :: s.strong.erase t } := by
  refine inv_counts h (ne_nil_of_mem ht) ?_ (cons_ne_nil u _) fun v =>
    (mem_erase_or_out hout v).imp_right fun hmem hv => mem_cons_of_mem u (hmem hv)
  rw [h.count, length_cons, length_erase_of_mem ht, Nat.sub_add_cancel (length_pos_of_mem ht)]

/-- The last reference goes: `t` starts the walk. -/
theorem inv_last {n : Nat} (hout : s.place t = .out) (hstrong : s.strong = [t]) (hn : n = 0) :
    Inv { s.goto t .decLock with count := n, strong := [], zeroBy := some t } := by
  have ht : t ∈ s.strong := hstrong ▸ mem_singleton_self t
  have hpos := ne_nil_of_mem ht
  refine ⟨places_goto h rfl ⟨rfl, h.ahead hpos⟩ fun v hv => ?_, hn, iff_of_false nofun (not_not_intro rfl),
    fun _ => h.ahead hpos, h.idle, fun hfreed => absurd (h.freed hfreed).1 hpos, linked_goto h hout nofun, h.ready,
    h.nodup, h.cleared, h.once⟩
  have hmem : v ∉ s.strong := by
    rw [hstrong, mem_singleton]
    exact hv
  exact .of_not_zeroBy (h.not_zeroBy ht) id (fun hv' => absurd hv' hmem) (fun _ _ => rfl) fun _ _ => id

theorem inv_ref_dec (hout : s.place t = .out) (ht : t ∈ s.strong) (hc : s.count + 1 < COUNT_WRAP) :
    Inv (ref_dec s t) := by
  have hlen : 0 < s.count := h.count ▸ length_pos_of_mem ht
  have hcount : (s.count + COUNT_WRAP - 1) % COUNT_WRAP = s.count - 1 := by
    rw [Nat.sub_add_comm hlen, Nat.add_mod_right]
    exact Nat.mod_eq_of_lt (Nat.lt_of_le_of_lt (Nat.sub_le _ _) (Nat.lt_of_succ_lt hc))
  have herase : (s.strong.erase t).length = s.count - 1 := by
    rw [length_erase_of_mem ht, h.count]
  unfold ref_dec
  by_cases hmore : 1 < s.count
  · rw [if_pos hmore]
    refine inv_counts h (ne_nil_of_mem ht) (hcount.trans herase.symm) ?_ (mem_erase_or_out hout)
    apply ne_nil_of_length_pos
    rw [herase]
    exact Nat.sub_pos_of_lt hmore
  · rw [if_neg hmore]
    have hone : s.count = 1 := Nat.le_antisymm (Nat.le_of_not_lt hmore) hlen
    have hnil : s.strong.erase t = [] := length_eq_zero_iff.1 (by rw [herase, hone])
    have hstrong : s.strong = [t] := by
      obtain ⟨u, hu⟩ := length_eq_one_iff.1 (h.count.symm.trans hone)
      rw [hu, mem_singleton] at ht
      rw [hu, ht]
    rw [hnil]
    have hn : (s.count + COUNT_WRAP - 1) % COUNT_WRAP = 0 := by rw [hcount, hone]
    rw [hn]
    exact inv_last (s := s) h hout hstrong rfl

theorem inv_cleanup (hpc : s.place t = .cleanup) : Inv { s.goto t .out with freed := true } := by
  obtain ⟨hz, hover⟩ := h.placeOk hpc
  exact ⟨places_goto h rfl trivial fun u _ => .kept id id, h.count, h.zero, h.ahead, h.idle,
    fun _ => ⟨h.no_strong hz, hover⟩, linked_goto h hpc nofun, h.ready, h.nodup, h.cleared, h.once⟩

/-! ### Weak pointers -/

variable [DecidableEq W]

theorem inv_set {callback : Bool} (hout : s.place t = .out) (ht : t ∈ s.strong)
    (hunset : s.stage wp = .unset) :
    Inv { s.goto t (.setInit wp callback) with stage := update s.stage wp (.setting t) } := by
  have hother : ∀ wp', s.stage wp' ≠ .unset → update s.stage wp (.setting t) wp' = s.stage wp' := by
    intro wp' hne
    refine update_of_ne (fun heq => hne ?_) ..
    rw [heq]
    exact hunset
  have hready : ∀ wp', s.stage wp' = .ready → update s.stage wp (.setting t) wp' = .ready := by
    intro wp' hr
    rw [hother wp' (by rw [hr]; exact nofun), hr]
  refine ⟨places_goto h rfl ⟨update_self .., ht⟩ fun u _ => ?_, h.count, h.zero, h.ahead, h.idle, h.freed,
    linked_goto h hout nofun, fun wp' hmem => hready wp' (h.ready wp' hmem), h.nodup, ?_, ?_⟩
  · refine ⟨id, id, id, ?_, fun _ _ => id, fun _ _ _ => id, fun _ _ _ => id, fun _ => id⟩
    rintro wp' (hset | hr)
    · exact hother wp' (by rw [hset]; exact nofun)
    · exact hother wp' (by rw [hr]; exact nofun)
  · exact fun wp' hc => ⟨hready wp' (h.cleared wp' hc).1, (h.cleared wp' hc).2⟩
  · exact fun wp' => ⟨(h.once wp').1, fun hpos => hready wp' ((h.once wp').2 hpos)⟩

/-- `weak_ptr_set` writes a pointer that is not in the list yet. -/
theorem inv_setInit {callback : Bool} (hpc : s.place t = .setInit wp callback) :
    Inv { s.goto t (.setPush wp) with
      ref := update s.ref wp true
      callback := update s.callback wp callback
      lock := update s.lock wp none } := by
  obtain ⟨hstage, ht⟩ := h.placeOk hpc
  have hpos := ne_nil_of_mem ht
  have hnot : wp ∉ s.weakRefs := fun hmem => ne_of_setting hstage (h.ready wp hmem) rfl
  have hahead : ∀ k, Ahead s k → Ahead { s.goto t (.setPush wp) with ref := update s.ref wp true } k := by
    intro k ha j wp' hk hj
    have hne : wp' ≠ wp := fun heq => hnot (heq ▸ mem_of_getElem? hj)
    obtain ⟨href, hcalled⟩ := ha j wp' hk hj
    exact ⟨(update_of_ne hne ..).trans href, hcalled⟩
  refine ⟨places_goto h rfl ⟨hstage, ht, update_self ..⟩ fun u hu => ?_, h.count, h.zero,
    fun _ => hahead 0 (h.ahead hpos), fun _ => .inl (hahead 0 (h.ahead hpos)),
    fun hfreed => absurd (h.freed hfreed).1 hpos, ?_, h.ready, h.nodup, ?_, h.once⟩
  · refine .of_not_zeroBy (h.not_zeroBy ht) id id (fun _ _ => rfl) fun wp' hset href => ?_
    change update s.ref wp true wp' = true
    rw [update_apply]
    split
    · rfl
    · exact href
  · intro wp' href
    by_cases hne : wp' = wp
    · subst hne
      exact .inr ⟨t, goto_self⟩
    · change update s.ref wp true wp' = true at href
      rw [update_of_ne hne] at href
      exact linked_goto h hpc nofun wp' href
  · intro wp' hc
    obtain ⟨hr, href⟩ := h.cleared wp' hc
    exact ⟨hr, (update_of_ne (ne_of_setting hstage hr) ..).trans href⟩

theorem inv_setPush (hpc : s.place t = .setPush wp) :
    Inv { s.goto t .out with weakRefs := s.weakRefs ++ [wp], stage := update s.stage wp .ready } := by
  obtain ⟨hstage, ht, href⟩ := h.placeOk hpc
  have hpos := ne_nil_of_mem ht
  have hnot : wp ∉ s.weakRefs := fun hmem => ne_of_setting hstage (h.ready wp hmem) rfl
  have hzero : s.called wp = 0 :=
    Nat.eq_zero_of_not_pos fun hlt => ne_of_setting hstage ((h.once wp).2 hlt) rfl
  have hready : ∀ wp', s.stage wp' = .ready → update s.stage wp .ready wp' = .ready := by
    intro wp' hr
    rw [update_apply]
    split
    · rfl
    · exact hr
  have hahead : Ahead { s.goto t .out with
      weakRefs := s.weakRefs ++ [wp], stage := update s.stage wp .ready } 0 := by
    intro j wp' _ hj
    rcases mem_append.1 (mem_of_getElem? hj) with hmem | hmem
    · obtain ⟨k, hk⟩ := mem_iff_getElem?.1 hmem
      exact h.ahead hpos k wp' (Nat.zero_le k) hk
    · rw [mem_singleton.1 hmem]
      exact ⟨href, hzero⟩
  refine ⟨places_goto h rfl trivial fun u hu => ?_, h.count, h.zero, fun _ => hahead, fun _ => .inl hahead,
    fun hfreed => absurd (h.freed hfreed).1 hpos, ?_, ?_, ?_, ?_, ?_⟩
  · refine .of_not_zeroBy (h.not_zeroBy ht) id id ?_ fun _ _ => id
    rintro wp' (hset | hr)
    · refine update_of_ne (fun heq => hu ?_) ..
      rw [heq, hstage] at hset
      exact (Stage.setting.inj hset).symm
    · exact (hready wp' hr).trans hr.symm
  · intro wp' href'
    by_cases hne : wp' = wp
    · exact .inl (mem_append_right _ (mem_singleton.2 hne))
    · rcases h.linked wp' href' with hmem | ⟨u, hu⟩
      · exact .inl (mem_append_left _ hmem)
      · refine .inr ⟨u, (goto_of_ne fun heq => hne ?_).trans hu⟩
        rw [heq, hpc] at hu
        exact (Place.setPush.inj hu).symm
  · intro wp' hmem
    rcases mem_append.1 hmem with hmem | hmem
    · exact hready wp' (h.ready wp' hmem)
    · rw [mem_singleton.1 hmem]
      exact update_self ..
  · exact h.nodup.append (nodup_singleton wp) (disjoint_singleton.2 hnot)
  · exact fun wp' hc => ⟨hready wp' (h.cleared wp' hc).1, (h.cleared wp' hc).2⟩
  · exact fun wp' => ⟨(h.once wp').1, fun hlt => hready wp' ((h.once wp').2 hlt)⟩

/-- The walk enters the section of the lock of its next weak pointer. -/
theorem inv_visit {i : Nat} (hpc : s.place t = .walk i) (hi : s.weakRefs[i]? = some wp) :
    Inv ((visit s wp).goto t (.next i)) := by
  obtain ⟨hz, hlock, hahead, hbehind⟩ := h.placeOk hpc
  obtain ⟨href, hcalled⟩ := hahead i wp (Nat.le_refl i) hi
  have hnil := h.no_strong hz
  -- no weak pointer is in the list twice
  have hne : ∀ j wp', j ≠ i → s.weakRefs[j]? = some wp' → wp' ≠ wp := by
    intro j wp' hji hj heq
    subst heq
    have hj' := (List.getElem?_eq_some_iff.1 hj).1
    exact hji ((List.getElem?_inj hj' h.nodup).1 (hj.trans hi.symm))
  have hupd : ∀ wp', update s.ref wp false wp' = true → s.ref wp' = true := by
    intro wp' ht
    by_contra hf
    rw [update_false wp' (Bool.eq_false_iff.2 hf)] at ht
    cases ht
  refine ⟨places_goto h rfl ⟨hz, hlock, ?_, ?_⟩ fun u hu => ?_, h.count, h.zero, fun hpos => absurd hnil hpos, ?_,
    ?_, ?_, h.ready, h.nodup, ?_, ?_⟩
  · intro j wp' hj hj'
    have hwp := hne j wp' (Nat.ne_of_gt hj) hj'
    obtain ⟨href', hcalled'⟩ := hahead j wp' (Nat.le_of_succ_le hj) hj'
    exact ⟨(update_of_ne hwp ..).trans href', (update_of_ne hwp ..).trans hcalled'⟩
  · intro j wp' hj hj'
    rcases Nat.lt_succ_iff_lt_or_eq.1 hj with hlt | heq
    · exact update_false wp' (hbehind j wp' hlt hj')
    · rw [heq] at hj'
      rw [Option.some.inj (hj'.symm.trans hi)]
      exact update_self ..
  · have hno : s.zeroBy ≠ some u := fun hz' => hu (Option.some.inj (hz'.symm.trans hz))
    refine .of_not_zeroBy hno id id (fun _ _ => rfl) fun wp' hset href' => ?_
    exact (update_of_ne (ne_of_setting hset (h.ready wp (mem_of_getElem? hi))).symm ..).trans href'
  · intro hnone
    exact nomatch hnone.symm.trans hlock
  · exact fun hfreed => ⟨hnil, fun wp' => update_false wp' ((h.freed hfreed).2 wp')⟩
  · exact fun wp' href' => linked_goto h hpc nofun wp' (hupd wp' href')
  · exact fun wp' hc => ⟨(h.cleared wp' hc).1, update_false wp' (h.cleared wp' hc).2⟩
  · intro wp'
    change update s.called wp _ wp' ≤ 1 ∧ (0 < update s.called wp _ wp' → _)
    by_cases hwp : wp' = wp
    · subst hwp
      rw [update_self, hcalled, Nat.zero_add]
      exact ⟨Bool.toNat_le _, fun _ => h.ready wp' (mem_of_getElem? hi)⟩
    · rw [update_of_ne hwp]
      exact h.once wp'

/-- `weak_ptr_clear` returns with the weak pointer already `NULL`. -/
theorem inv_clear (hpc : s.place t = .clearLock wp) (hready : s.stage wp = .ready)
    (href : s.ref wp = false) : Inv (s.clear t wp) := by
  refine ⟨places_goto h rfl trivial fun u _ => .kept id id, h.count, h.zero, h.ahead, h.idle, h.freed,
    linked_goto h hpc nofun, h.ready, h.nodup, ?_, h.once⟩
  intro wp' hc
  rcases update_cases hc with ⟨rfl, -⟩ | ⟨-, hc⟩
  · exact ⟨hready, href⟩
  · exact h.cleared wp' hc

theorem inv_leave {o : Option W} {q : Place W} (hpc : s.place t = q) (hq : ∀ wp, q ≠ .setPush wp) :
    Inv (s.leave t o) := by
  cases o with
  | none | some => exact inv_goto (p := .out) h hpc hq trivial

theorem inv_advance (hc : s.count + 1 < COUNT_WRAP) (hs : advance s t = some s') : Inv s' := by
  cases hpc : s.place t <;> simp only [advance, hpc, reduceCtorEq, ite_none_right_eq_some] at hs
  case tryLoad o =>
    cases hs
    exact inv_tryCas h (.inl hpc)
  case tryCas o count =>
    by_cases hzero : count = 0
    · rw [if_pos hzero] at hs
      cases hs
      exact inv_leave h hpc nofun
    · rw [if_neg hzero] at hs
      by_cases heq : s.count = count
      · -- the count is not zero: there are references
        rw [if_pos heq] at hs
        cases hs
        have hpos : s.strong ≠ [] := by
          intro hnil
          rw [h.count, hnil] at heq
          exact hzero heq.symm
        exact inv_leave (inv_take h hpos hc) hpc nofun
      · rw [if_neg heq] at hs
        cases hs
        exact inv_tryCas h (.inr ⟨count, hpc⟩)
  case decLock =>
    obtain ⟨hfree, heq⟩ := hs
    cases heq
    obtain ⟨hz, hahead⟩ := h.placeOk hpc
    refine inv_move (p := .walk 0) (r := some t) h hpc nofun ?_ nofun ?_
    · intro u _ hl
      rw [hfree] at hl
      cases hl
    · exact ⟨hz, rfl, hahead, fun j _ hj => absurd hj (Nat.not_lt_zero j)⟩
  case walk i =>
    obtain ⟨hz, hlock, -⟩ := h.placeOk hpc
    cases hi : s.weakRefs[i]? with
    | none =>
      simp only [hi] at hs
      cases hs
      have hover := over_of_walk h hpc hi
      refine inv_move (p := .cleanup) (r := none) h hpc nofun ?_ (fun _ => .inr hover) ⟨hz, hover⟩
      intro u hu hl
      exact absurd (Option.some.inj (hl.symm.trans hlock)) hu
    | some wp =>
      simp only [hi, ite_none_right_eq_some] at hs
      rw [← Option.some.inj hs.2]
      exact inv_visit h hpc hi
  case next i =>
    cases hs
    have hok := h.placeOk hpc
    exact inv_goto (p := .walk (i + 1)) h hpc nofun hok
  case cleanup =>
    cases hs
    exact inv_cleanup h hpc
  case setInit wp callback =>
    cases hs
    exact inv_setInit h hpc
  case setPush wp =>
    rw [← Option.some.inj hs.2]
    exact inv_setPush h hpc
  case getLock wp =>
    obtain ⟨-, hs⟩ := hs
    split at hs
    · cases hs
      have hok := h.placeOk hpc
      exact inv_goto (p := .tryLoad (some wp)) h hpc nofun hok
    · cases hs
      exact inv_goto (p := .out) h hpc nofun trivial
  case clearLock wp =>
    obtain ⟨-, hs⟩ := hs
    have hready : s.stage wp = .ready := h.placeOk hpc
    by_cases href : s.ref wp = true
    · rw [if_pos href] at hs
      by_cases hlock : s.refLock = none
      · rw [if_pos hlock] at hs
        cases hs
        exact inv_clear (inv_unlink h hready hlock) hpc hready (update_self ..)
      · rw [if_neg hlock] at hs
        cases hs
        exact h
    · rw [if_neg href] at hs
      cases hs
      exact inv_clear h hpc hready (Bool.eq_false_iff.2 href)

end

theorem inv_step [DecidableEq W] {a : Action T W} (h : Inv s) (hc : Counted s a) (hs : step s a = some s') : Inv s' := by
  cases a <;> simp only [step, ite_none_right_eq_some] at hs
  case ref_inc t =>
    obtain ⟨⟨-, ht⟩, heq⟩ := hs
    cases heq
    exact inv_take h (ne_nil_of_mem ht) hc
  case ref_inc_try t =>
    obtain ⟨⟨hout, -⟩, heq⟩ := hs
    cases heq
    exact inv_goto (p := .tryLoad none) h hout nofun trivial
  case ref_dec t =>
    obtain ⟨⟨hout, ht⟩, heq⟩ := hs
    cases heq
    exact inv_ref_dec h hout ht hc
  case pass t u =>
    obtain ⟨⟨hout, ht⟩, heq⟩ := hs
    cases heq
    exact inv_pass h hout ht
  case weak_ptr_set t wp callback =>
    obtain ⟨⟨hout, ht, hunset⟩, heq⟩ := hs
    cases heq
    exact inv_set h hout ht hunset
  case weak_ptr_get t wp =>
    obtain ⟨⟨hout, hready, -⟩, heq⟩ := hs
    cases heq
    exact inv_goto (p := .getLock wp) h hout nofun hready
  case weak_ptr_clear t wp =>
    obtain ⟨⟨hout, hready, -⟩, heq⟩ := hs
    cases heq
    exact inv_goto (p := .clearLock wp) h hout nofun hready
  case go t => exact inv_advance h hc hs
  case spurious t =>
    split at hs
    · rename_i o count hpc
      simp only [ite_none_left_eq_some] at hs
      rw [← Option.some.inj hs.2]
      exact inv_tryCas h (.inr ⟨count, hpc⟩)
    · cases hs

end Patchwork.WeakPtr
