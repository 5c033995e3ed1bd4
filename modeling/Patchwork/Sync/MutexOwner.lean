import Patchwork.Sync.Mutex
/-!
# Who owns the mutex

In every state the thread in `owner` has the mutex `depth` times and no other
thread has it at all, as long as two things do not happen: a timed acquire does
not get to its wait while the mutex is owned, and no thread acquires the mutex
`2 ^ 32` times without a release. Either of the two breaks it at once.

The proof names the ways in which a step of an acquire can change the system
(`Change`); the invariant is kept by each of them, and by a release.
-/

namespace Patchwork.Mutex

open Option Function Patchwork.Wait Lib

variable {T : Type} [DecidableEq T]

/-! ## What should hold of a state and of a step -/

/-- The mutex is held by its owner, as often as its depth says, and by no one
else; who was told so is the owner; `mutex_acquire` never returns `false`. -/
structure Exclusive (s : System T) : Prop where
  held : ∀ t, s.held t = if s.mtx.owner = some t then s.mtx.depth else 0
  owns : ∀ t timeout, s.pc t = .returned timeout true → s.mtx.owner = some t
  acquires : ∀ t, s.pc t ≠ .returned CLOCKS_NEVER false

/-- The owner is overwritten only when it is `NULL`, or by its own release. -/
def OwnerKept (s : System T) (a : Action T) : Prop :=
  ∀ s', step s a = some s' →
    s'.mtx.owner = s.mtx.owner ∨ s.mtx.owner = none ∨ ∃ t, a = .release t ∧ s.mtx.owner = some t

/-- A timed acquire that still has time left when it gets to its wait finds the
mutex free, and a recursive acquire does not wrap the depth. -/
def Careful (s : System T) : Action T → Prop
  | .acquire _ _ | .release _ => True
  | .advance t w =>
    match s.pc t with
    | .deepened _ depth => depth + 1 < 2 ^ 32
    | .timed timeout => w.now < (w.start + timeout) % 2 ^ 64 → s.mtx.owner = none
    | _ => True

/-! ## The invariant -/

/-- What a thread's place says about the mutex. No thread is ever blocked with a
timeout. -/
def PcOk (mtx : mutex_t T) (t : T) : Pc → Prop
  | .idle | .entered _ => True
  | .deepen _ => mtx.owner = some t
  | .deepened _ depth => mtx.owner = some t ∧ depth = mtx.depth
  | .spin _ _ | .never | .neverBlocked => mtx.owner ≠ some t
  | .timed timeout => mtx.owner ≠ some t ∧ timeout ≠ CLOCKS_NEVER
  | .timedBlocked _ _ => False
  | .returned timeout acquired => if acquired then mtx.owner = some t else timeout ≠ CLOCKS_NEVER

structure Inv (s : System T) : Prop where
  held : ∀ t, s.held t = if s.mtx.owner = some t then s.mtx.depth else 0
  depth_pos : ∀ t, s.mtx.owner = some t → 0 < s.mtx.depth
  depth_lt : s.mtx.depth < 2 ^ 32
  pcs : ∀ t, PcOk s.mtx t (s.pc t)

theorem inv_init : Inv (init : System T) where
  held _ := rfl
  depth_pos _ h := by cases h
  depth_lt := Nat.two_pow_pos 32
  pcs _ := trivial

variable {s : System T}

theorem Inv.exclusive (h : Inv s) : Exclusive s where
  held := h.held
  owns t timeout ht := by
    have hp := h.pcs t
    rw [ht] at hp
    exact hp
  acquires t ht := by
    have hp := h.pcs t
    rw [ht] at hp
    exact hp rfl

/-! ## What a step can do -/

/-- The ways in which an acquire of `t` changes the system. -/
inductive Change (s : System T) (t : T) : System T → Prop
  | goto (pc : Pc) (hpc : PcOk s.mtx t pc) : Change s t (s.goto t pc)
  | take (timeout : Nat) (ho : s.mtx.owner = none) : Change s t (s.take t timeout)
  | deepen (timeout : Nat) (ho : s.mtx.owner = some t) (hd : s.mtx.depth + 1 < 2 ^ 32) :
    Change s t (s.acquired t timeout { s.mtx with depth := s.mtx.depth + 1 })

variable {m : mutex_t T} {t : T} {s' : System T} {timeout : Nat} {a : Action T}

omit [DecidableEq T] in
/-- What a place says about the mutex does not depend on who owns it, if it is
not the thread itself. -/
theorem PcOk.of_not_owner {m' : mutex_t T} {pc : Pc} (h : PcOk m t pc) (ho : m.owner ≠ some t)
    (ho' : m'.owner ≠ some t) : PcOk m' t pc := by
  cases pc with
  | idle | entered _ => trivial
  | deepen _ => exact absurd h ho
  | deepened _ _ => exact absurd h.1 ho
  | spin _ _ | never | neverBlocked => exact ho'
  | timed timeout => exact ⟨ho', h.2⟩
  | timedBlocked _ _ => exact h
  | returned timeout acquired =>
    cases acquired with
    | false => exact h
    | true => exact absurd h ho

omit [DecidableEq T] in
theorem owner_ne (ho : m.owner = some t) : ∀ u ≠ t, m.owner ≠ some u :=
  fun _ hu he => hu (some.inj (he.symm.trans ho))

/-- The invariant after `t` has got the mutex, or part of it, or given it up. -/
theorem inv_of_mutex {pc : Pc} {n : Nat} (h : Inv s)
    (hs : ∀ u ≠ t, s.mtx.owner ≠ some u) (hm : ∀ u ≠ t, m.owner ≠ some u)
    (hn : n = if m.owner = some t then m.depth else 0) (hpos : m.owner = some t → 0 < m.depth)
    (hlt : m.depth < 2 ^ 32) (hpc : PcOk m t pc) :
    Inv ⟨m, update s.pc t pc, update s.held t n⟩ where
  held u := by
    by_cases hu : u = t
    · subst hu
      simp only [update_self]
      exact hn
    · have h0 := h.held u
      rw [if_neg (hs u hu)] at h0
      simp only [update_of_ne hu, if_neg (hm u hu), h0]
  depth_pos u hu := by
    by_cases hut : u = t
    · exact hpos (hut ▸ hu)
    · exact absurd hu (hm u hut)
  depth_lt := hlt
  pcs u := by
    by_cases hu : u = t
    · subst hu
      simp only [update_self]
      exact hpc
    · simp only [update_of_ne hu]
      exact (h.pcs u).of_not_owner (hs u hu) (hm u hu)

theorem Change.inv (h : Inv s) (hc : Change s t s') : Inv s' := by
  cases hc with
  | goto pc hpc =>
    refine ⟨h.held, h.depth_pos, h.depth_lt, fun u => ?_⟩
    by_cases hu : u = t
    · subst hu
      simp only [System.goto, update_self]
      exact hpc
    · simp only [System.goto, update_of_ne hu]
      exact h.pcs u
  | take timeout ho =>
    have hheld : s.held t = 0 := by
      rw [h.held, ho]
      rfl
    refine inv_of_mutex h (by simp [ho]) ?_ (by simp [hheld]) (fun _ => Nat.one_pos) (Nat.one_lt_two_pow (by decide)) rfl
    intro u hu he
    exact hu (some.inj he).symm
  | deepen timeout ho hd =>
    have hne := owner_ne ho
    refine inv_of_mutex h hne hne ?_ (fun _ => Nat.succ_pos _) hd ho
    rw [if_pos ho, h.held, if_pos ho]

theorem Change.owner (hc : Change s t s') : s'.mtx.owner = s.mtx.owner ∨ s.mtx.owner = none := by
  cases hc with
  | goto pc _ => exact .inl rfl
  | take timeout ho => exact .inr ho
  | deepen timeout _ _ => exact .inl rfl

theorem release_owner (hs : mutex_release s t = some s') : s.mtx.owner = some t := by
  by_contra ho
  simp [mutex_release, ho] at hs

theorem release_inv (h : Inv s) (hs : mutex_release s t = some s') : Inv s' := by
  have ho := release_owner hs
  have hpos := h.depth_pos t ho
  have hlt := h.depth_lt
  have hdepth : (s.mtx.depth + 2 ^ 32 - 1) % 2 ^ 32 = s.mtx.depth - 1 := by omega
  simp only [mutex_release, if_pos ho, hdepth] at hs
  cases hs
  by_cases hone : s.mtx.depth - 1 = 0
  · refine inv_of_mutex h (owner_ne ho) (by simp [hone]) ?_ (by simp [hone]) (by simp [hone]) trivial
    simp [hone, h.held, ho]
  · simp only [if_neg hone]
    refine inv_of_mutex h (owner_ne ho) (owner_ne rfl) ?_ ?_ ?_ trivial
    · rw [if_pos rfl, h.held, if_pos ho]
    · intro _
      exact Nat.pos_of_ne_zero hone
    · show s.mtx.depth - 1 < 2 ^ 32
      omega

theorem neverSection_change {result : result_t} {w : World}
    (ho : s.mtx.owner ≠ some t) (hs : neverSection s t result w = some s') : Change s t s' := by
  obtain ⟨turn, hturn, rfl⟩ := map_eq_some_iff.1 hs
  rcases waitNever_cases hturn with rfl | ⟨rfl, hfree⟩
  · exact .goto _ ho
  · exact .take _ (by simpa using hfree)

/-- The timed wait takes the mutex whoever owns it. -/
theorem timedSection_zero (s : System T) (t : T) (timeout deadline : Nat) (w : World) :
    timedSection s t timeout .zero deadline w = s.take t timeout := by
  unfold timedSection
  rw [timeout_done]

theorem acquire_timeout_change {w : World} (h : Inv s)
    (hok : Careful s (.advance t w)) (hs : mutex_acquire_timeout s t w = some s') : Change s t s' := by
  have hp := h.pcs t
  unfold mutex_acquire_timeout at hs
  unfold Careful at hok
  cases hpc : s.pc t with
  | idle => simp [hpc] at hs
  | returned _ _ => simp [hpc] at hs
  | entered timeout =>
    simp only [hpc] at hs
    split at hs
    · rename_i ho
      cases hs
      exact .goto _ ho
    · rename_i ho
      cases hs
      exact .goto _ ho
  | deepen timeout =>
    simp only [hpc] at hs hp
    cases hs
    exact .goto _ ⟨hp, rfl⟩
  | deepened timeout depth =>
    simp only [hpc] at hs hp hok
    obtain ⟨ho, rfl⟩ := hp
    rw [Nat.mod_eq_of_lt hok] at hs
    cases hs
    exact .deepen timeout ho hok
  | spin timeout spin =>
    simp only [hpc] at hs hp
    split_ifs at hs with hspin hfree hzero hnever
    · cases hs
      exact .take timeout hfree
    · cases hs
      exact .goto _ hp
    · rw [← some.inj hs, hzero]
      exact .goto _ (by decide : (0 : Nat) ≠ CLOCKS_NEVER)
    · cases hs
      exact .goto _ hp
    · cases hs
      exact .goto _ ⟨hp, hnever⟩
  | never | neverBlocked =>
    simp only [hpc] at hs hp
    exact neverSection_change hp hs
  | timed timeout =>
    simp only [hpc] at hs hp hok
    split at hs
    · cases hs
      exact .goto _ hp.2
    · rename_i hleft
      rw [timedSection_zero] at hs
      cases hs
      exact .take timeout (hok (Nat.lt_of_not_ge hleft))
  | timedBlocked timeout deadline =>
    simp only [hpc] at hp
    exact hp.elim

theorem call_change (hs : step s (.acquire t timeout) = some s') : Change s t s' := by
  simp only [step] at hs
  split at hs
  · cases hs
    exact .goto _ trivial
  · cases hs

theorem step_release (hs : step s (.release t) = some s') : mutex_release s t = some s' := by
  simp only [step] at hs
  split at hs
  · exact hs
  · cases hs

theorem inv_step (h : Inv s) (hok : Careful s a) (hs : step s a = some s') : Inv s' := by
  cases a with
  | acquire t timeout => exact (call_change hs).inv h
  | advance t w => exact (acquire_timeout_change h hok hs).inv h
  | release t => exact release_inv h (step_release hs)

theorem ownerKept_of_careful (h : Inv s) (hok : Careful s a) : OwnerKept s a := by
  intro s' hs
  cases a with
  | acquire t timeout => exact (call_change hs).owner.imp_right .inl
  | advance t w => exact (acquire_timeout_change h hok hs).owner.imp_right .inl
  | release t => exact .inr (.inr ⟨t, rfl, release_owner (step_release hs)⟩)

/-! ## The two ways to break it -/

theorem take_not_exclusive {u : T} (h : Inv s) (ho : s.mtx.owner = some u)
    (hut : u ≠ t) : ¬ Exclusive (s.take t timeout) := by
  intro he
  have hu := he.held u
  have hpos := h.depth_pos u ho
  simp only [System.take, System.acquired, update_of_ne hut, h.held u, if_pos ho, some.injEq,
    if_neg hut.symm] at hu
  omega

theorem wrap_not_exclusive {depth : Nat} (h : Inv s) (ho : s.mtx.owner = some t)
    (hd : depth = s.mtx.depth) (hwrap : ¬ depth + 1 < 2 ^ 32) :
    ¬ Exclusive (s.acquired t timeout { s.mtx with depth := (depth + 1) % 2 ^ 32 }) := by
  intro he
  have ht := he.held t
  have hlt := h.depth_lt
  simp only [System.acquired, update_self, h.held t, if_pos ho] at ht
  omega

theorem careful_or_broken (h : Inv s) (hok : ¬ Careful s a) : ∃ s', step s a = some s' ∧ ¬ Exclusive s' := by
  cases a with
  | acquire t timeout => exact absurd trivial hok
  | release t => exact absurd trivial hok
  | advance t w =>
    have hp := h.pcs t
    unfold Careful at hok
    simp only [step, mutex_acquire_timeout]
    cases hpc : s.pc t with
    | deepened timeout depth =>
      simp only [hpc] at hok hp ⊢
      exact ⟨_, rfl, wrap_not_exclusive h hp.1 hp.2 hok⟩
    | timed timeout =>
      simp only [hpc, Classical.not_imp] at hok hp ⊢
      obtain ⟨hleft, ho⟩ := hok
      obtain ⟨u, hu⟩ := ne_none_iff_exists'.1 ho
      have hut : u ≠ t := fun he => hp.1 (he ▸ hu)
      refine ⟨_, if_neg (Nat.not_le_of_lt hleft), ?_⟩
      rw [timedSection_zero]
      exact take_not_exclusive h hu hut
    | _ => simp [hpc] at hok

/-! ## Runs -/

/-- Along a run of any number of threads, the mutex is exclusive in every state
and its owner is overwritten only when it is `NULL`, exactly if no timed acquire
gets to its wait while the mutex is owned and no recursion wraps the depth. -/
theorem mutex_exclusive_iff_careful (as : List (Action T)) :
    Always step Exclusive (init : System T) as ∧ Along step OwnerKept (init : System T) as ↔
      Along step Careful (init : System T) as := by
  constructor
  · rintro ⟨h, -⟩
    exact Always.along (fun _ _ _ => inv_step) (fun _ _ hi _ => careful_or_broken hi) inv_init h
  · intro h
    refine ⟨(Along.always (fun _ _ _ => inv_step) inv_init h).mono fun _ => Inv.exclusive, ?_⟩
    exact Along.along (fun _ _ _ => inv_step) (fun _ _ => ownerKept_of_careful) inv_init h

/-- A reading of the clock at which nothing has happened yet. -/
def noWait : World := { prepares := [], commit := .zero, start := 0, now := 0, uptime := 0 }

/-- One thread acquires the mutex and keeps it; another one spins until it gets
to its wait, with a timeout that is far from over. -/
def timedAcquire : List (Action Bool) :=
  [.acquire true CLOCKS_NEVER, .advance true noWait, .advance true noWait, .acquire false 5000] ++
    List.replicate (CONFIG_MUTEX_MAX_SLOW_SPIN + 3) (.advance false noWait)

/-- Both threads then have the mutex, and its owner is the second. -/
theorem timedAcquire_not_exclusive :
    (run step init timedAcquire).map (fun s => (s.mtx.owner, s.held true, s.held false)) =
        some (some false, 1, 1) ∧
      ¬ Always step Exclusive init timedAcquire := by
  refine ⟨by decide +kernel,
    not_always (fun s => s.mtx.owner = some false ∧ s.held true = 1) (by decide +kernel) ?_⟩
  rintro s ⟨ho, ht⟩ h
  have hheld := h.held true
  simp [ho, ht] at hheld

end Patchwork.Mutex
