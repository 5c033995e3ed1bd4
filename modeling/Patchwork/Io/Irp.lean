import Patchwork.Lib.Runs
/-!
# The life of an IRP

One I/O request packet of `irp.c`, the driver that owns it, and any number of others
that try to cancel it: callers of `irp_cancel` and CPUs in `irp_timeouts_check`. A step
is one atomic operation on `irp->cancel`, one section under the lock of a timeout queue,
or what a completer does up to the next of these. A completion callback does something
of its own, which is counted, and ends in `irp_complete`.

The word `cancel` keeps `IRP_CANCELLED` while the IRP is completed after a cancellation,
and the `irp_complete` at the end of the first callback then does nothing. So the frames
above are not completed and the IRP is not returned. It goes well if only an IRP without
callbacks is cancelled, and if nobody tries to while the owner completes it.
-/

namespace Patchwork.Irp

open Option Function Lib

variable {K : Type} [DecidableEq K]

def IRP_FRAME_MAX : Nat := 5

/-- The values of `irp->cancel`: no handler, some handler, or the sentinel. -/
inductive irp_cancel_t where
  | null
  | handler
  | IRP_CANCELLED
deriving Repr, DecidableEq

/-- `queued` is `irp->cpu != CPU_ID_INVALID`. -/
structure irp_t where
  cancel : irp_cancel_t
  queued : Bool
  frame : Nat
deriving Repr, DecidableEq

/-- Where an agent is. -/
inductive Place where
  | outside
  /-- The owner, before it calls `irp_complete`. -/
  | owning
  /-- At the `irp_set_cancel(irp, NULL)` of `irp_complete`. -/
  | setting
  /-- At the head of the loop of `irp_perform_completion`. -/
  | looping
  /-- At the `irp_timeout_remove` for the last frame. -/
  | removing
  /-- At the callback of the frame just passed. -/
  | calling
  /-- Behind the loop. -/
  | freeing
  /-- There was no handler: at the store that puts `NULL` back. -/
  | restoring
  /-- At the `irp_timeout_remove` of `irp_cancel`. -/
  | cancelling
  /-- At `handler(irp)`. -/
  | handling
deriving Repr, DecidableEq

/-- `none` is the owner. `runs` counts the calls of each frame's callback, `returned`
those of `pool_free`, and `late` says that a step was taken after the first. -/
structure System (K : Type) where
  irp : irp_t
  place : Option K → Place
  runs : Nat → Nat
  active : Nat
  returned : Nat
  late : Bool

/-- `others` counts the other IRPs of the pool that are in use. -/
def init (first others : Nat) : System K where
  irp := { cancel := .null, queued := false, frame := first }
  place
    | none => .owning
    | some _ => .outside
  runs _ := 0
  active := others + 1
  returned := 0
  late := false

def System.goto (s : System K) (t : Option K) (p : Place) : System K :=
  { s with place := update s.place t p }

@[simp]
theorem goto_self (s : System K) (t : Option K) (p : Place) : (s.goto t p).place t = p := update_self ..

theorem goto_other (s : System K) {t u : Option K} (p : Place) (hu : u ≠ t) : (s.goto t p).place u = s.place u :=
  update_of_ne hu ..

theorem goto_owner (s : System K) (k : K) (p : Place) : (s.goto (some k) p).place none = s.place none :=
  goto_other s p (some_ne_none k).symm

/-! ## The functions -/

/-- The new value, unless the sentinel is there. -/
def irp_set_cancel (irp : irp_t) (cancel : irp_cancel_t) : irp_t :=
  if irp.cancel = .IRP_CANCELLED then irp else { irp with cancel := cancel }

def irp_timeout_add (irp : irp_t) : irp_t := { irp with queued := true }

def irp_timeout_remove (irp : irp_t) : irp_t := { irp with queued := false }

/-- `atomic_exchange(&irp->cancel, IRP_CANCELLED)` and the branch on what it returns;
`next` is where an agent goes that got a handler. -/
def exchange (s : System K) (k : K) (next : Place) : System K :=
  { s with irp := { s.irp with cancel := .IRP_CANCELLED } }.goto (some k)
    (match s.irp.cancel with
    | .IRP_CANCELLED => .outside
    | .null => .restoring
    | .handler => next)

/-- The next step of an agent inside. `success` is the result of the handler, after
which the owner leaves the IRP alone. `stack` says which frames have a callback. -/
def advance (stack : Nat → Bool) (s : System K) (t : Option K) (success : Bool) : Option (System K) :=
  match s.place t with
  | .outside | .owning => none
  | .setting =>
    if s.irp.cancel = .IRP_CANCELLED then some (s.goto t .outside)
    else some ({ s with irp := irp_set_cancel s.irp .null }.goto t .looping)
  | .looping =>
    if s.irp.frame < IRP_FRAME_MAX then
      some ({ s with irp := { s.irp with frame := s.irp.frame + 1 } }.goto t
        (if s.irp.frame + 1 = IRP_FRAME_MAX then .removing else .calling))
    else some (s.goto t .freeing)
  | .removing => some ({ s with irp := irp_timeout_remove s.irp }.goto t .calling)
  | .calling =>
    if stack (s.irp.frame - 1) then
      some ({ s with
        runs := update s.runs (s.irp.frame - 1) (s.runs (s.irp.frame - 1) + 1) }.goto t .setting)
    else some (s.goto t .looping)
  | .freeing =>
    -- The assertion on `irp->cpu`.
    if s.irp.queued then none
    else some ({ s with returned := s.returned + 1, active := s.active - 1 }.goto t .outside)
  | .restoring => some ({ s with irp := { s.irp with cancel := .null } }.goto t .outside)
  | .cancelling => some ({ s with irp := irp_timeout_remove s.irp }.goto t .handling)
  | .handling =>
    some ((if success ∧ s.place none = .owning then s.goto none .outside else s).goto t .looping)

inductive Action (K : Type) where
  /-- The owner calls `irp_set_cancel`. -/
  | setCancel (handler : Bool)
  /-- The owner calls `irp_timeout_add`. -/
  | timeoutAdd
  /-- The owner calls `irp_complete`. -/
  | complete
  | cancel (k : K)
  /-- A CPU finds the IRP first in its timeout queue, with its deadline over. -/
  | expire (k : K)
  | advance (t : Option K) (success : Bool)

def act (stack : Nat → Bool) (s : System K) : Action K → Option (System K)
  | .setCancel handler =>
    if s.place none = .owning then
      some { s with irp := irp_set_cancel s.irp (if handler then .handler else .null) }
    else none
  | .timeoutAdd =>
    if s.place none = .owning ∧ s.irp.queued = false then some { s with irp := irp_timeout_add s.irp } else none
  | .complete => if s.place none = .owning then some (s.goto none .setting) else none
  | .cancel k => if s.place (some k) = .outside then some (exchange s k .cancelling) else none
  | .expire k =>
    if s.place (some k) = .outside ∧ s.irp.queued = true then
      some (exchange { s with irp := irp_timeout_remove s.irp } k .handling)
    else none
  | .advance t success => advance stack s t success

/-- Every step touches the IRP. -/
def step (stack : Nat → Bool) (s : System K) (a : Action K) : Option (System K) :=
  (act stack s a).map fun s' => { s' with late := s.late || decide (0 < s.returned) }

/-! ## What should hold -/

/-- How often the callback of a frame has run when the frames up to `n` are completed. -/
def ranTo (stack : Nat → Bool) (first n : Nat) : Nat → Nat :=
  fun f => if first ≤ f ∧ f < n ∧ stack f = true then 1 else 0

structure Right (stack : Nat → Bool) (first others : Nat) (s : System K) : Prop where
  runs : ∀ f, s.runs f ≤ 1
  returned : s.returned ≤ 1
  active : s.active + s.returned = others + 1
  late : s.late = false
  /-- The assertion before the IRP is returned. -/
  queued : ∀ t, s.place t = .freeing → s.irp.queued = false
  /-- When nobody has anything left to do, everything was done. -/
  finished : (∀ t, s.place t = .outside) → s.returned = 1 ∧ s.runs = ranTo stack first IRP_FRAME_MAX

/-- No callback from a frame on. -/
def Silent (stack : Nat → Bool) (n : Nat) : Prop := ∀ f, n ≤ f → f < IRP_FRAME_MAX → stack f = false

/-- An attempt to cancel comes while the owner has the IRP and finds a handler only if
there are no callbacks, a handler that is called succeeds, the owner does not complete
the IRP during an attempt, and an IRP in a timeout queue has a frame. -/
def Calm (stack : Nat → Bool) (s : System K) : Action K → Prop
  | .setCancel _ => True
  | .timeoutAdd => s.irp.frame < IRP_FRAME_MAX
  | .complete => s.irp.cancel ≠ .IRP_CANCELLED
  | .cancel _ | .expire _ => s.place none = .owning ∧ (s.irp.cancel = .handler → Silent stack s.irp.frame)
  | .advance _ success => success = true

/-! ## The invariant -/

/-- Nobody but the owner is inside, or one agent is, with the sentinel in place. -/
inductive Attempts (stack : Nat → Bool) (first : Nat) (s : System K) : Prop where
  | none (cancel : s.irp.cancel ≠ .IRP_CANCELLED) (others : ∀ k, s.place (some k) = .outside)
  | restoring (k : K) (cancel : s.irp.cancel = .IRP_CANCELLED) (place : s.place (some k) = .restoring)
      (others : ∀ j ≠ k, s.place (some j) = .outside)
  | handling (k : K) (cancel : s.irp.cancel = .IRP_CANCELLED)
      (place : s.place (some k) = .cancelling ∨ s.place (some k) = .handling) (silent : Silent stack first)
      (others : ∀ j ≠ k, s.place (some j) = .outside)

/-- What a completer at a place has done. -/
def Progress (stack : Nat → Bool) (first : Nat) (irp : irp_t) (runs : Nat → Nat) : Place → Prop
  | .setting => irp.cancel ≠ .IRP_CANCELLED ∧ first ≤ irp.frame ∧ irp.frame ≤ IRP_FRAME_MAX ∧
      runs = ranTo stack first irp.frame ∧ (irp.queued = true → irp.frame < IRP_FRAME_MAX)
  | .looping => first ≤ irp.frame ∧ irp.frame ≤ IRP_FRAME_MAX ∧ runs = ranTo stack first irp.frame ∧
      (irp.queued = true → irp.frame < IRP_FRAME_MAX)
  | .removing => first < irp.frame ∧ irp.frame = IRP_FRAME_MAX ∧ runs = ranTo stack first (irp.frame - 1)
  | .calling => first < irp.frame ∧ irp.frame ≤ IRP_FRAME_MAX ∧ runs = ranTo stack first (irp.frame - 1) ∧
      (irp.queued = true → irp.frame < IRP_FRAME_MAX)
  | .freeing => runs = ranTo stack first IRP_FRAME_MAX ∧ irp.queued = false
  | .outside | .owning | .restoring | .cancelling | .handling => False

inductive Inv (stack : Nat → Bool) (first others : Nat) (s : System K) : Prop where
  | waiting (owner : s.place none = .owning) (frame : s.irp.frame = first) (runs : s.runs = fun _ => 0)
      (active : s.active = others + 1) (returned : s.returned = 0) (late : s.late = false)
      (queued : s.irp.queued = true → first < IRP_FRAME_MAX) (attempts : Attempts stack first s)
  | completing (t : Option K) (alone : ∀ u ≠ t, s.place u = .outside) (active : s.active = others + 1)
      (returned : s.returned = 0) (late : s.late = false)
      (cancel : s.irp.cancel ≠ .IRP_CANCELLED ∨ Silent stack first)
      (progress : Progress stack first s.irp s.runs (s.place t))
  | done (empty : ∀ u, s.place u = .outside) (runs : s.runs = ranTo stack first IRP_FRAME_MAX)
      (active : s.active = others) (returned : s.returned = 1) (late : s.late = false)

variable {stack : Nat → Bool} {first others : Nat} {s s' : System K} {t : Option K} {k : K}

theorem ranTo_le (stack : Nat → Bool) (first n f : Nat) : ranTo stack first n f ≤ 1 := by
  unfold ranTo
  split_ifs <;> simp

theorem ranTo_self (stack : Nat → Bool) (n : Nat) : ranTo stack n n = fun _ => 0 := by
  funext f
  rw [ranTo, if_neg]
  rintro ⟨h₁, h₂, -⟩
  omega

theorem ranTo_skip {n : Nat} (hn : first < n) (hstack : stack (n - 1) = false) :
    ranTo stack first n = ranTo stack first (n - 1) := by
  funext f
  have : (first ≤ f ∧ f < n ∧ stack f = true) ↔ (first ≤ f ∧ f < n - 1 ∧ stack f = true) := by
    constructor
    · rintro ⟨h₁, h₂, h₃⟩
      have hf : f ≠ n - 1 := by
        rintro rfl
        rw [hstack] at h₃
        cases h₃
      exact ⟨h₁, by omega, h₃⟩
    · rintro ⟨h₁, h₂, h₃⟩
      exact ⟨h₁, by omega, h₃⟩
  simp only [ranTo, this]

theorem ranTo_call {n : Nat} (hn : first < n) (hstack : stack (n - 1) = true) :
    update (ranTo stack first (n - 1)) (n - 1) (ranTo stack first (n - 1) (n - 1) + 1) =
      ranTo stack first n := by
  funext f
  by_cases hf : f = n - 1
  · subst hf
    rw [update_self, ranTo, ranTo, if_neg (by omega), if_pos ⟨by omega, by omega, hstack⟩]
  · rw [update_of_ne hf]
    have : (first ≤ f ∧ f < n - 1 ∧ stack f = true) ↔ (first ≤ f ∧ f < n ∧ stack f = true) := by
      constructor <;> rintro ⟨h₁, h₂, h₃⟩ <;> exact ⟨h₁, by omega, h₃⟩
    simp only [ranTo, this]

section

omit [DecidableEq K]

theorem inv_init : Inv stack first others (init first others : System K) :=
  .waiting rfl rfl rfl rfl rfl rfl nofun (.none nofun fun _ => rfl)

theorem Attempts.congr (ha : Attempts stack first s) (hplace : s'.place = s.place)
    (hcancel : s'.irp.cancel = .IRP_CANCELLED ↔ s.irp.cancel = .IRP_CANCELLED) : Attempts stack first s' := by
  cases ha with
  | none cancel alone => exact .none (mt hcancel.1 cancel) (hplace ▸ alone)
  | restoring k cancel place alone => exact .restoring k (hcancel.2 cancel) (hplace ▸ place) (hplace ▸ alone)
  | handling k cancel place silent alone =>
    exact .handling k (hcancel.2 cancel) (hplace ▸ place) silent (hplace ▸ alone)

theorem Attempts.not_freeing (ha : Attempts stack first s) (k : K) : s.place (some k) ≠ .freeing := by
  intro hk
  cases ha with
  | none cancel alone =>
    rw [alone k] at hk
    cases hk
  | restoring j cancel place alone =>
    by_cases hkj : k = j
    · rw [hkj, place] at hk
      cases hk
    · rw [alone k hkj] at hk
      cases hk
  | handling j cancel place silent alone =>
    by_cases hkj : k = j
    · rw [hkj] at hk
      rcases place with h | h
      · rw [h] at hk
        cases hk
      · rw [h] at hk
        cases hk
    · rw [alone k hkj] at hk
      cases hk

theorem Progress.runs_le (irp : irp_t) (runs : Nat → Nat) (p : Place) (h : Progress stack first irp runs p) (f : Nat) :
    runs f ≤ 1 := by
  have hran : ∃ n, runs = ranTo stack first n := by
    cases p with
    | setting => exact ⟨_, h.2.2.2.1⟩
    | looping => exact ⟨_, h.2.2.1⟩
    | removing => exact ⟨_, h.2.2⟩
    | calling => exact ⟨_, h.2.2.1⟩
    | freeing => exact ⟨_, h.1⟩
    | outside | owning | restoring | cancelling | handling => exact h.elim
  obtain ⟨n, rfl⟩ := hran
  exact ranTo_le stack first n f

theorem Inv.right (hi : Inv stack first others s) : Right stack first others s := by
  cases hi with
  | waiting owner frame runs active returned late queued attempts =>
    refine ⟨by simp [runs], by omega, by omega, late, fun t ht => ?_, fun hall => ?_⟩
    · cases t with
      | none =>
        rw [owner] at ht
        cases ht
      | some k => exact absurd ht (attempts.not_freeing k)
    · rw [hall none] at owner
      cases owner
  | completing t alone active returned late cancel progress =>
    refine ⟨progress.runs_le, by omega, by omega, late, fun u hu => ?_, fun hall => ?_⟩
    · by_cases hut : u = t
      · rw [← hut, hu] at progress
        exact progress.2
      · rw [alone u hut] at hu
        cases hu
    · rw [hall t] at progress
      exact progress.elim
  | done empty runs active returned late =>
    refine ⟨fun f => by rw [runs]; exact ranTo_le .., by omega, by omega, late, fun t ht => ?_,
      fun _ => ⟨returned, runs⟩⟩
    rw [empty t] at ht
    cases ht

/-- While the owner has the IRP, nothing was done. -/
theorem Inv.of_owning (hi : Inv stack first others s) (howner : s.place none = .owning) :
    s.irp.frame = first ∧ s.runs = (fun _ => 0) ∧ s.active = others + 1 ∧ s.returned = 0 ∧ s.late = false ∧
      (s.irp.queued = true → first < IRP_FRAME_MAX) ∧ Attempts stack first s := by
  cases hi with
  | waiting owner frame runs active returned late queued attempts =>
    exact ⟨frame, runs, active, returned, late, queued, attempts⟩
  | completing t alone active returned late cancel progress =>
    by_cases ht : none = t
    · rw [← ht, howner] at progress
      exact progress.elim
    · rw [alone none ht] at howner
      cases howner
  | done empty runs active returned late =>
    rw [empty none] at howner
    cases howner

end

/-! ## The steps -/

omit [DecidableEq K] in
theorem inv_setCancel {handler : Bool} (hi : Inv stack first others s) (howner : s.place none = .owning) :
    Inv stack first others { s with irp := irp_set_cancel s.irp (if handler then .handler else .null) } := by
  obtain ⟨hframe, hruns, hactive, hreturned, hlate, hqueued, hattempts⟩ := hi.of_owning howner
  have hkept : ∀ c, (irp_set_cancel s.irp c).frame = s.irp.frame ∧ (irp_set_cancel s.irp c).queued = s.irp.queued := by
    intro c
    unfold irp_set_cancel
    split_ifs <;> exact ⟨rfl, rfl⟩
  refine .waiting howner ((hkept _).1.trans hframe) hruns hactive hreturned hlate (by rwa [(hkept _).2])
    (hattempts.congr rfl ?_)
  unfold irp_set_cancel
  split_ifs with hcancelled <;> simp [hcancelled]

theorem inv_complete (hfirst : first ≤ IRP_FRAME_MAX) (hi : Inv stack first others s)
    (howner : s.place none = .owning) (hcalm : s.irp.cancel ≠ .IRP_CANCELLED) :
    Inv stack first others (s.goto none .setting) := by
  obtain ⟨hframe, hruns, hactive, hreturned, hlate, hqueued, hattempts⟩ := hi.of_owning howner
  cases hattempts with
  | none cancel alone =>
    refine .completing none (fun u hu => ?_) hactive hreturned hlate (.inl cancel) ?_
    · cases u with
      | none => exact absurd rfl hu
      | some k => exact (goto_other s _ hu).trans (alone k)
    · rw [goto_self]
      refine ⟨cancel, hframe.symm.le, hframe ▸ hfirst, ?_, hframe ▸ hqueued⟩
      exact hruns.trans (hframe ▸ (ranTo_self stack first).symm)
  | restoring k cancel => exact absurd cancel hcalm
  | handling k cancel => exact absurd cancel hcalm

theorem inv_exchange {next : Place} (hnext : next = .cancelling ∨ next = .handling)
    (hi : Inv stack first others s) (hk : s.place (some k) = .outside) (howner : s.place none = .owning)
    (hsilent : s.irp.cancel = .handler → Silent stack s.irp.frame) : Inv stack first others (exchange s k next) := by
  obtain ⟨hframe, hruns, hactive, hreturned, hlate, hqueued, hattempts⟩ := hi.of_owning howner
  refine .waiting ((goto_owner ..).trans howner) hframe hruns hactive hreturned hlate hqueued ?_
  have hothers : ∀ p, ∀ j ≠ k, (s.goto (some k) p).place (some j) = s.place (some j) :=
    fun p j hj => goto_other s p fun he => hj (some.inj he)
  unfold exchange
  cases hc : s.irp.cancel with
  | IRP_CANCELLED =>
    -- Somebody else is at it, and nothing changes.
    have hplace : (s.goto (some k) .outside).place = s.place := by
      rw [System.goto, ← hk]
      exact update_eq_self ..
    exact hattempts.congr hplace (iff_of_true rfl hc)
  | null =>
    cases hattempts with
    | none cancel alone => exact .restoring k rfl (goto_self ..) fun j hj => (hothers _ j hj).trans (alone j)
    | restoring j cancel => rw [hc] at cancel; cases cancel
    | handling j cancel => rw [hc] at cancel; cases cancel
  | handler =>
    cases hattempts with
    | none cancel alone =>
      refine .handling k rfl ?_ (hframe ▸ hsilent hc) fun j hj => (hothers _ j hj).trans (alone j)
      exact hnext.imp (goto_self ..).trans (goto_self ..).trans
    | restoring j cancel => rw [hc] at cancel; cases cancel
    | handling j cancel => rw [hc] at cancel; cases cancel

/-- The step of an agent that tries to cancel, while the owner has the IRP. -/
theorem inv_attempt (hfirst : first ≤ IRP_FRAME_MAX) (hi : Inv stack first others s)
    (howner : s.place none = .owning) (hs : advance stack s t true = some s') : Inv stack first others s' := by
  obtain ⟨hframe, hruns, hactive, hreturned, hlate, hqueued, hattempts⟩ := hi.of_owning howner
  cases t with
  | none => simp [advance, howner] at hs
  | some k =>
    have hothers : ∀ s : System K, ∀ p, ∀ j ≠ k, (s.goto (some k) p).place (some j) = s.place (some j) :=
      fun s p j hj => goto_other s p fun he => hj (some.inj he)
    cases hattempts with
    | none cancel alone => simp [advance, alone k] at hs
    | restoring j cancel place alone =>
      by_cases hkj : k = j
      · subst hkj
        simp only [advance, place] at hs
        cases hs
        refine .waiting ((goto_owner ..).trans howner) hframe hruns hactive hreturned hlate hqueued
          (.none nofun fun i => ?_)
        by_cases hik : i = k
        · rw [hik, goto_self]
        · exact (hothers _ _ i hik).trans (alone i hik)
      · simp [advance, alone k hkj] at hs
    | handling j cancel place silent alone =>
      by_cases hkj : k = j
      · subst hkj
        rcases place with place | place
        · simp only [advance, place] at hs
          cases hs
          exact .waiting ((goto_owner ..).trans howner) hframe hruns hactive hreturned hlate nofun
            (.handling k cancel (.inr (goto_self ..)) silent fun i hi => (hothers _ _ i hi).trans (alone i hi))
        · simp only [advance, place, howner, and_self, if_true] at hs
          cases hs
          refine .completing (some k) (fun u hu => ?_) hactive hreturned hlate (.inr silent) ?_
          · rw [goto_other _ _ hu]
            cases u with
            | none => exact goto_self ..
            | some i => exact (goto_other _ _ (some_ne_none i)).trans (alone i fun he => hu (he ▸ rfl))
          · rw [goto_self]
            refine ⟨hframe.symm.le, hframe ▸ hfirst, ?_, hframe ▸ hqueued⟩
            exact hruns.trans (hframe ▸ (ranTo_self stack first).symm)
      · simp [advance, alone k hkj] at hs

theorem inv_progress {u : Option K} (halone : ∀ v ≠ u, s.place v = .outside) (hactive : s.active = others + 1)
    (hreturned : s.returned = 0) (hlate : s.late = false)
    (hcancel : s.irp.cancel ≠ .IRP_CANCELLED ∨ Silent stack first)
    (hprogress : Progress stack first s.irp s.runs (s.place u)) (hs : advance stack s t true = some s') :
    Inv stack first others s' := by
  have htu : t = u := by
    by_contra hne
    simp [advance, halone t hne] at hs
  subst htu
  have halone' : ∀ s'' : System K, s''.place = s.place → ∀ p, ∀ v ≠ t, (s''.goto t p).place v = .outside :=
    fun s'' hp p v hv => (goto_other s'' p hv).trans ((congrFun hp v).trans (halone v hv))
  have hgoto : ∀ irp runs p, (irp.cancel ≠ .IRP_CANCELLED ∨ Silent stack first) → Progress stack first irp runs p →
      Inv stack first others ({ s with irp := irp, runs := runs }.goto t p) := fun irp runs p hc hp =>
    .completing t (halone' _ rfl _) hactive hreturned hlate hc (by rw [goto_self]; exact hp)
  unfold advance at hs
  cases hp : s.place t <;> simp only [hp] at hs hprogress
  case outside | owning | restoring | cancelling | handling => exact hprogress.elim
  case setting =>
    obtain ⟨hnot, hle, hmax, hruns, hqueued⟩ := hprogress
    rw [if_neg hnot] at hs
    rw [← some.inj hs, irp_set_cancel, if_neg hnot]
    exact hgoto _ _ _ (.inl nofun) ⟨hle, hmax, hruns, hqueued⟩
  case looping =>
    obtain ⟨hle, hmax, hruns, hqueued⟩ := hprogress
    split_ifs at hs with hframe hlast
    · cases hs
      exact hgoto _ _ _ hcancel ⟨Nat.lt_succ_of_le hle, hlast, hruns⟩
    · cases hs
      exact hgoto _ _ _ hcancel ⟨Nat.lt_succ_of_le hle, hframe, hruns, fun _ => lt_of_le_of_ne hframe hlast⟩
    · cases hs
      have hend : s.irp.frame = IRP_FRAME_MAX := le_antisymm hmax (not_lt.1 hframe)
      refine hgoto _ _ _ hcancel ⟨hend ▸ hruns, ?_⟩
      by_contra hq
      exact hframe (hqueued (Bool.not_eq_false _ ▸ hq))
  case removing =>
    obtain ⟨hlt, hmax, hruns⟩ := hprogress
    cases hs
    exact hgoto _ _ _ hcancel ⟨hlt, hmax.le, hruns, nofun⟩
  case calling =>
    obtain ⟨hlt, hmax, hruns, hqueued⟩ := hprogress
    split_ifs at hs with hstack
    · cases hs
      -- There is a callback, so the sentinel is not there.
      have hnot : s.irp.cancel ≠ .IRP_CANCELLED := by
        refine hcancel.resolve_right fun hsilent => ?_
        rw [hsilent _ (by omega) (by omega)] at hstack
        cases hstack
      refine hgoto _ _ _ hcancel ⟨hnot, hlt.le, hmax, ?_, hqueued⟩
      rw [hruns]
      exact ranTo_call hlt hstack
    · cases hs
      exact hgoto _ _ _ hcancel ⟨hlt.le, hmax, hruns.trans (ranTo_skip hlt (Bool.not_eq_true _ ▸ hstack)).symm, hqueued⟩
  case freeing =>
    obtain ⟨hruns, hqueued⟩ := hprogress
    simp only [hqueued, Bool.false_eq_true, if_false] at hs
    cases hs
    refine .done (fun v => ?_) hruns (by simp [System.goto, hactive]) (by simp [System.goto, hreturned]) hlate
    by_cases hv : v = t
    · rw [hv, goto_self]
    · exact halone' _ rfl _ v hv

theorem inv_act {a : Action K} (hfirst : first ≤ IRP_FRAME_MAX) (hi : Inv stack first others s) (hcalm : Calm stack s a)
    (hs : act stack s a = some s') : Inv stack first others s' ∧ s.returned = 0 := by
  cases a <;> simp only [act] at hs
  case setCancel handler =>
    by_cases howner : s.place none = .owning
    · simp only [if_pos howner] at hs
      cases hs
      exact ⟨inv_setCancel hi howner, (hi.of_owning howner).2.2.2.1⟩
    · simp [howner] at hs
  case timeoutAdd =>
    split_ifs at hs with hwhen
    obtain ⟨hframe, hruns, hactive, hreturned, hlate, hqueued, hattempts⟩ := hi.of_owning hwhen.1
    cases hs
    exact ⟨.waiting hwhen.1 hframe hruns hactive hreturned hlate (fun _ => hframe ▸ hcalm)
      (hattempts.congr rfl Iff.rfl), hreturned⟩
  case complete =>
    split_ifs at hs with howner
    cases hs
    exact ⟨inv_complete hfirst hi howner hcalm, (hi.of_owning howner).2.2.2.1⟩
  case cancel k =>
    split_ifs at hs with hk
    cases hs
    exact ⟨inv_exchange (.inl rfl) hi hk hcalm.1 hcalm.2, (hi.of_owning hcalm.1).2.2.2.1⟩
  case expire k =>
    split_ifs at hs with hk
    obtain ⟨hframe, hruns, hactive, hreturned, hlate, hqueued, hattempts⟩ := hi.of_owning hcalm.1
    have hi' : Inv stack first others { s with irp := irp_timeout_remove s.irp } :=
      .waiting hcalm.1 hframe hruns hactive hreturned hlate nofun (hattempts.congr rfl Iff.rfl)
    cases hs
    exact ⟨inv_exchange (.inr rfl) hi' hk.1 hcalm.1 hcalm.2, hreturned⟩
  case advance t success =>
    obtain rfl : success = true := hcalm
    cases hi with
    | waiting owner frame runs active returned late queued attempts =>
      exact ⟨inv_attempt hfirst (.waiting owner frame runs active returned late queued attempts) owner hs, returned⟩
    | completing u alone active returned late cancel progress =>
      exact ⟨inv_progress alone active returned late cancel progress hs, returned⟩
    | done empty runs active returned late => simp [advance, empty t] at hs

theorem inv_step {a : Action K} (hfirst : first ≤ IRP_FRAME_MAX) (hi : Inv stack first others s)
    (hcalm : Calm stack s a) (hs : step stack s a = some s') : Inv stack first others s' := by
  obtain ⟨s₁, hact, rfl⟩ := map_eq_some_iff.1 hs
  obtain ⟨hi', hreturned⟩ := inv_act hfirst hi hcalm hact
  have hlate : (s.late || decide (0 < s.returned)) = s₁.late := by
    rw [hi.right.late, hi'.right.late, hreturned]
    rfl
  rw [hlate]
  exact hi'

/-- Along every run whose steps are all calm, the IRP is completed as it should be: each
callback at most once and the IRP returned at most once, no step after that, and both
done once nobody is inside. -/
theorem irp_right (hfirst : first ≤ IRP_FRAME_MAX) (as : List (Action K))
    (hcalm : Along (step stack) (Calm stack) (init first others : System K) as) :
    Always (step stack) (Right stack first others) (init first others : System K) as :=
  (hcalm.always (fun _ _ _ hi ha hs => inv_step hfirst hi ha hs) inv_init).mono fun _ hi => hi.right

/-! ## Getting out -/

/-- The most steps that an agent at a place takes until it is outside. -/
def stepsLeft (irp : irp_t) : Place → Nat
  | .outside | .owning => 0
  | .restoring | .freeing => 1
  | .looping => 4 * (IRP_FRAME_MAX - irp.frame) + 2
  | .setting | .handling => 4 * (IRP_FRAME_MAX - irp.frame) + 3
  | .calling | .cancelling => 4 * (IRP_FRAME_MAX - irp.frame) + 4
  | .removing => 4 * (IRP_FRAME_MAX - irp.frame) + 5

theorem advance_stepsLeft (hout : s.place t ≠ .outside) (hown : s.place t ≠ .owning)
    (hqueued : s.place t = .freeing → s.irp.queued = false) : ∃ s', advance stack s t true = some s' ∧
      s'.place t ≠ .owning ∧ stepsLeft s'.irp (s'.place t) < stepsLeft s.irp (s.place t) := by
  have hgoto : ∀ (s₁ : System K) p, p ≠ .owning → stepsLeft s₁.irp p < stepsLeft s.irp (s.place t) →
      ∃ s', some (s₁.goto t p) = some s' ∧ s'.place t ≠ .owning ∧
        stepsLeft s'.irp (s'.place t) < stepsLeft s.irp (s.place t) := by
    intro s₁ p hp hlt
    refine ⟨_, rfl, ?_⟩
    rw [goto_self]
    exact ⟨hp, hlt⟩
  unfold advance
  cases hp : s.place t <;> simp only [hp] at hgoto ⊢
  case outside => exact absurd hp hout
  case owning => exact absurd hp hown
  case setting =>
    split_ifs with hcancel
    · exact hgoto _ _ nofun (Nat.succ_pos _)
    · refine hgoto _ _ nofun ?_
      rw [irp_set_cancel, if_neg hcancel]
      exact Nat.lt_succ_self _
  case looping =>
    split_ifs with hframe hlast
    · refine hgoto _ _ nofun ?_
      simp only [stepsLeft]
      omega
    · refine hgoto _ _ nofun ?_
      simp only [stepsLeft]
      omega
    · exact hgoto _ _ nofun (Nat.lt_add_left _ (Nat.lt_succ_self 1))
  case calling =>
    split_ifs
    · exact hgoto _ _ nofun (Nat.lt_succ_self _)
    · exact hgoto _ _ nofun (by simp [stepsLeft])
  case freeing =>
    rw [hqueued hp]
    exact hgoto _ _ nofun Nat.one_pos
  case restoring => exact hgoto _ _ nofun Nat.one_pos
  case removing | cancelling => exact hgoto _ _ nofun (Nat.lt_succ_self _)
  case handling =>
    refine hgoto _ _ nofun ?_
    split_ifs <;> exact Nat.lt_succ_self _

/-- An agent inside gets out, if it goes on. -/
theorem Inv.leaves (hfirst : first ≤ IRP_FRAME_MAX) (hi : Inv stack first others s) (hown : s.place t ≠ .owning) :
    ∃ n s', run (step stack) s (List.replicate n (.advance t true)) = some s' ∧ s'.place t = .outside := by
  generalize hn : stepsLeft s.irp (s.place t) = n
  induction n using Nat.strong_induction_on generalizing s with
  | _ n ih =>
    by_cases hout : s.place t = .outside
    · exact ⟨0, s, rfl, hout⟩
    · obtain ⟨s₁, hs, hown₁, hlt⟩ := advance_stepsLeft hout hown (hi.right.queued t)
      have hstep : step stack s (.advance t true) = some { s₁ with late := s.late || decide (0 < s.returned) } :=
        map_eq_some_iff.2 ⟨s₁, hs, rfl⟩
      obtain ⟨m, s', hrun, hend⟩ := ih _ (hn ▸ hlt) (inv_step hfirst hi (a := .advance t true) rfl hstep) hown₁ rfl
      refine ⟨m + 1, s', ?_, hend⟩
      rw [List.replicate_succ, run, hstep]
      exact hrun

/-- In every state of such a run, whoever is inside gets out. -/
theorem agents_leave (hfirst : first ≤ IRP_FRAME_MAX) (as : List (Action K))
    (hcalm : Along (step stack) (Calm stack) (init first others : System K) as) :
    Always (step stack) (fun s => ∀ t, s.place t ≠ .owning →
      ∃ n s', run (step stack) s (List.replicate n (.advance t true)) = some s' ∧ s'.place t = .outside)
      (init first others : System K) as :=
  (hcalm.always (fun _ _ _ hi ha hs => inv_step hfirst hi ha hs) inv_init).mono fun _ hi _ => hi.leaves hfirst

instance (n : Nat) : Decidable (Silent stack n) :=
  decidable_of_iff (∀ f < IRP_FRAME_MAX, n ≤ f → stack f = false)
    ⟨fun h f hn hf => h f hf hn, fun h f hf hn => h f hn hf⟩

instance (s : System K) : ∀ a : Action K, Decidable (Calm stack s a)
  | .setCancel _ => inferInstanceAs (Decidable True)
  | .timeoutAdd => inferInstanceAs (Decidable (_ < _))
  | .complete => inferInstanceAs (Decidable (_ ≠ _))
  | .cancel _ | .expire _ => inferInstanceAs (Decidable (_ ∧ (_ → _)))
  | .advance _ _ => inferInstanceAs (Decidable (_ = _))

/-- Two frames with callbacks. An attempt to cancel comes before there is a handler, and
later the owner completes the IRP. -/
def completed : List (Action Unit) :=
  [.cancel (), .setCancel true, .advance (some ()) true, .setCancel true, .timeoutAdd, .complete] ++
    List.replicate 10 (.advance none true)

theorem completed_right : Always (step fun _ => true) (Right (fun _ => true) 3 0) (init 3 0 : System Unit) completed :=
  irp_right (by decide) completed (by decide +kernel)

/-- One frame with a callback, and a handler. The IRP is cancelled. -/
def cancelled : List (Action Unit) :=
  [.setCancel true, .cancel ()] ++ List.replicate 6 (.advance (some ()) true)

/-- The callback's `irp_complete` returns at once: nobody is inside, and the IRP is not
returned. -/
theorem cancelled_not_right :
    ¬ Always (step fun _ => true) (Right (fun _ => true) 4 0) (init 4 0 : System Unit) cancelled := by
  refine not_always (fun s => s.place none = .outside ∧ s.place (some ()) = .outside ∧ s.returned = 0)
    (by decide +kernel) ?_
  rintro s ⟨hnone, hsome, hreturned⟩ h
  have hfinished := h.finished fun t => by
    cases t with
    | none => exact hnone
    | some u => exact hsome
  rw [hreturned] at hfinished
  exact absurd hfinished.1 (by decide)

end Patchwork.Irp
