import Patchwork.Lib.Runs
/-!
# The mutex of user space

`mtx_lock` and `mtx_unlock` of the standard library over a futex. A thread goes to sleep
only after it has marked the mutex as contested, and an unlock that finds the mark wakes
one thread. The thread that takes the mutex next puts `_MTX_LOCKED` into it and forgets the
other sleepers: they are woken exactly if that never happens while somebody sleeps and no
other wake-up is under way.

Each access to a field of the mutex is a step of its own. `nest` counts the calls of
`mtx_lock` of a thread that are not undone yet, and a thread that retries knows whether it
was woken; both are only there to say what is proved.
-/

namespace Patchwork.Mtx

open List Function Lib

inductive State where
  | UNLOCKED | LOCKED | CONTESTED
deriving Repr, DecidableEq

structure mtx_t (T : Type) where
  state : State
  /-- `none` is `ERR`. -/
  owner : Option T
  depth : Nat

def MTX_SPIN_COUNT : Nat := 100

/-- What a thread does next. -/
inductive Pc where
  /-- Not in a call. -/
  | out
  | lockOwner | deeper | spin (i : Nat) | setOwner | setDepth
  /-- The loop of `mtx_lock`: the first exchange, the second one, and the system call. -/
  | contend (woken : Bool) | mark (woken : Bool) | wait (woken : Bool)
  | asleep
  | unlockOwner | decDepth | testDepth | clearOwner | exchange | wake
deriving DecidableEq

structure System (T : Type) where
  mtx : mtx_t T
  pc : T → Pc
  /-- The threads in `FUTEX_WAIT`. -/
  queue : List T
  nest : T → Nat

inductive Action (T : Type) where
  | lock (t : T)
  | unlock (t : T)
  /-- The next step of the thread. -/
  | go (t : T)
  /-- `FUTEX_WAKE` of the thread `t` wakes the thread `u`. -/
  | wake (t u : T)

variable {T : Type} [DecidableEq T]

/-- As `mtx_init` leaves it. -/
def init : System T :=
  { mtx := { state := .UNLOCKED, owner := none, depth := 0 }, pc := fun _ => .out, queue := [], nest := fun _ => 0 }

/-! ## Steps -/

def System.set (s : System T) (t : T) (mtx : mtx_t T) (pc : Pc) (nest : Nat) : System T :=
  { s with mtx := mtx, pc := update s.pc t pc, nest := update s.nest t nest }

def System.goto (s : System T) (t : T) (pc : Pc) : System T := s.set t s.mtx pc (s.nest t)

/-- The exchange of `_MTX_UNLOCKED` for `_MTX_LOCKED` has succeeded. -/
def System.take (s : System T) (t : T) : System T := s.set t { s.mtx with state := .LOCKED } .setOwner (s.nest t)

def advance (s : System T) (t : T) : Option (System T) :=
  match s.pc t with
  | .out | .asleep => none
  | .lockOwner => some (s.goto t (if s.mtx.owner = some t then .deeper else .spin 0))
  | .deeper => some (s.set t { s.mtx with depth := s.mtx.depth + 1 } .out (s.nest t + 1))
  | .spin i =>
    if s.mtx.state = .UNLOCKED then some (s.take t)
    else some (s.goto t (if i + 1 < MTX_SPIN_COUNT then .spin (i + 1) else .contend false))
  | .setOwner => some (s.set t { s.mtx with owner := some t } .setDepth (s.nest t))
  | .setDepth => some (s.set t { s.mtx with depth := 1 } .out 1)
  | .contend woken =>
    if s.mtx.state = .UNLOCKED then some (s.take t)
    else some (s.goto t (if s.mtx.state = .LOCKED then .mark woken else .wait woken))
  | .mark woken =>
    if s.mtx.state = .LOCKED then some (s.set t { s.mtx with state := .CONTESTED } (.wait woken) (s.nest t))
    else some (s.goto t (.wait woken))
  | .wait woken =>
    if s.mtx.state = .CONTESTED then some { s.goto t .asleep with queue := s.queue ++ [t] }
    else some (s.goto t (.contend woken))
  | .unlockOwner => some (s.goto t (if s.mtx.owner = some t then .decDepth else .out))
  | .decDepth => some (s.set t { s.mtx with depth := s.mtx.depth - 1 } .testDepth (s.nest t - 1))
  | .testDepth => some (s.goto t (if 0 < s.mtx.depth then .out else .clearOwner))
  | .clearOwner => some (s.set t { s.mtx with owner := none } .exchange (s.nest t))
  | .exchange =>
    some (s.set t { s.mtx with state := .UNLOCKED } (if s.mtx.state = .CONTESTED then .wake else .out) (s.nest t))
  | .wake => if s.queue = [] then some (s.goto t .out) else none

def step (s : System T) : Action T → Option (System T)
  | .lock t => if s.pc t = .out then some (s.goto t .lockOwner) else none
  | .unlock t => if s.pc t = .out then some (s.goto t .unlockOwner) else none
  | .go t => advance s t
  | .wake t u =>
    if s.pc t = .wake ∧ u ∈ s.queue then
      some { (s.goto t .out).goto u (.contend true) with queue := s.queue.erase u }
    else none

/-! ## What should hold -/

/-- Places between taking the mutex and giving it back. -/
def Pc.owning : Pc → Bool
  | .deeper | .setOwner | .setDepth | .decDepth | .testDepth | .clearOwner | .exchange => true
  | _ => false

/-- The thread has the mutex: its unlock is still to come or under way. -/
def Owning (s : System T) (t : T) : Prop := (s.pc t).owning = true ∨ 0 < s.nest t

/-- A wake-up is about to be made, or was made for a thread that is about to retry. -/
def Pc.pending : Pc → Bool
  | .contend woken | .mark woken | .wait woken => woken
  | .wake => true
  | _ => false

structure Right (s : System T) : Prop where
  exclusive : ∀ t u, 0 < s.nest t → 0 < s.nest u → t = u
  balanced : ∀ t, 0 < s.nest t → s.mtx.owner = some t ∧ s.mtx.depth = s.nest t ∧ s.mtx.state ≠ .UNLOCKED
  /-- While somebody sleeps, the mutex is held by a thread whose unlock wakes, or a wake-up is under way. -/
  awake : ∀ t, s.pc t = .asleep →
    (s.mtx.state = .CONTESTED ∧ ∃ u, Owning s u) ∨ ∃ u, (s.pc u).pending = true

/-- The thread is about to exchange `_MTX_UNLOCKED` for `_MTX_LOCKED`. -/
def Pc.takes : Pc → Bool
  | .spin _ | .contend _ => true
  | _ => false

/-- Nobody takes the mutex while a thread sleeps, unless another wake-up is under way. -/
def Careful (s : System T) : Action T → Prop
  | .go t => (s.pc t).takes = true → s.mtx.state = .UNLOCKED → s.queue = [] ∨ ∃ u, u ≠ t ∧ (s.pc u).pending = true
  | _ => True

instance [Fintype T] (s : System T) : (a : Action T) → Decidable (Careful s a)
  | .lock _ => .isTrue trivial
  | .unlock _ => .isTrue trivial
  | .go t => inferInstanceAs (Decidable ((s.pc t).takes = true → _ → s.queue = [] ∨ ∃ u, u ≠ t ∧ (s.pc u).pending = true))
  | .wake _ _ => .isTrue trivial

/-! ## Who has the mutex -/

/-- What the place of a thread says about the mutex. -/
def PcOk (m : mtx_t T) (t : T) (nest : Nat) : Pc → Prop
  | .out | .lockOwner | .unlockOwner => (m.owner = some t ↔ 0 < nest) ∧ (0 < nest → m.depth = nest)
  | .deeper | .decDepth => m.owner = some t ∧ 0 < nest ∧ m.depth = nest
  | .testDepth => m.owner = some t ∧ m.depth = nest
  | .setDepth | .clearOwner => m.owner = some t ∧ nest = 0
  | _ => m.owner ≠ some t ∧ nest = 0

structure Core (s : System T) : Prop where
  pcs : ∀ t, PcOk s.mtx t (s.nest t) (s.pc t)
  one : ∀ t u, Owning s t → Owning s u → t = u
  held : s.mtx.state ≠ .UNLOCKED ↔ ∃ t, Owning s t

variable {s s' : System T} {m : mtx_t T} {t u : T} {pc : Pc} {n : Nat}

section

omit [DecidableEq T]

theorem not_owning (h : ¬ Owning s t) : (s.pc t).owning = false ∧ s.nest t = 0 := by
  rw [Owning, not_or, Bool.not_eq_true, Nat.not_lt, Nat.le_zero] at h
  exact h

theorem Core.queue (h : Core s) (queue : List T) : Core { s with queue := queue } := ⟨h.pcs, h.one, h.held⟩

theorem pcOk_at (h : Core s) (hpc : s.pc t = pc) : PcOk s.mtx t (s.nest t) pc := by
  rw [← hpc]
  exact h.pcs t

theorem owning_at (hpc : s.pc t = pc) (hown : pc.owning = true) : Owning s t := by
  rw [Owning, hpc]
  exact .inl hown

theorem pcOk_out (ho : m.owner ≠ some t) (hnest : n = 0) : PcOk m t n .out := by
  rw [hnest]
  exact ⟨iff_of_false ho (Nat.lt_irrefl 0), fun hlt => absurd hlt (Nat.lt_irrefl 0)⟩

/-- What a thread without the mutex says does not depend on who has it. -/
theorem PcOk.of_not_owning {m' : mtx_t T} (h : PcOk m t n pc) (hpc : pc.owning = false) (hnest : n = 0)
    (ho : m'.owner ≠ some t) : PcOk m' t n pc := by
  subst hnest
  cases pc with
  | out | lockOwner | unlockOwner => exact pcOk_out ho rfl
  | deeper | decDepth | testDepth | setDepth | clearOwner | setOwner | exchange => exact absurd hpc (by simp [Pc.owning])
  | spin _ | contend _ | mark _ | wait _ | asleep | wake => exact ⟨ho, rfl⟩

end

/-- How a step of `t` can change who has the mutex. -/
inductive Moves (s : System T) (t : T) (state' : State) (owns' : Prop) : Prop
  | stays (hown : Owning s t ↔ owns') (hstate : state' = .UNLOCKED ↔ s.mtx.state = .UNLOCKED)
  | takes (hfree : s.mtx.state = .UNLOCKED) (hown : owns') (hstate : state' ≠ .UNLOCKED)
  | gives (hown : Owning s t) (hnot : ¬ owns') (hstate : state' = .UNLOCKED)

theorem set_pc_self : (s.set t m pc n).pc t = pc := update_self ..

theorem set_pc_of_ne (h : u ≠ t) : (s.set t m pc n).pc u = s.pc u := update_of_ne h ..

theorem set_nest_self : (s.set t m pc n).nest t = n := update_self ..

theorem set_nest_of_ne (h : u ≠ t) : (s.set t m pc n).nest u = s.nest u := update_of_ne h ..

theorem owning_set_self : Owning (s.set t m pc n) t ↔ pc.owning = true ∨ 0 < n := by
  rw [Owning, set_pc_self, set_nest_self]

theorem owning_set_of_ne (h : u ≠ t) : Owning (s.set t m pc n) u ↔ Owning s u := by
  rw [Owning, Owning, set_pc_of_ne h, set_nest_of_ne h]

/-- A step of `t`. Only who has the mutex changes its owner and its depth. -/
theorem Core.set (h : Core s) (hpc : PcOk m t n pc)
    (hmtx : (m.owner = s.mtx.owner ∧ m.depth = s.mtx.depth) ∨ (Owning s t ∧ ∀ u, u ≠ t → m.owner ≠ some u))
    (hmoves : Moves s t m.state (pc.owning = true ∨ 0 < n)) : Core (s.set t m pc n) := by
  constructor
  · intro u
    by_cases hu : u = t
    · subst hu
      rw [set_pc_self, set_nest_self]
      exact hpc
    · rw [set_pc_of_ne hu, set_nest_of_ne hu]
      have hold := h.pcs u
      rcases hmtx with ⟨ho, hd⟩ | ⟨hown, ho⟩
      · have hsame : ∀ p k, PcOk s.mtx u k p → PcOk m u k p := by
          intro p k hp
          cases p <;> simpa only [PcOk, ho, hd] using hp
        exact hsame _ _ hold
      · obtain ⟨hnot, hzero⟩ := not_owning fun hown' => hu (h.one u t hown' hown)
        exact hold.of_not_owning hnot hzero (ho u hu)
  · have hothers : ∀ u, u ≠ t → Owning s u → (pc.owning = true ∨ 0 < n) → False := by
      intro u hu hown hnew
      cases hmoves with
      | stays hiff _ => exact hu (h.one u t hown (hiff.2 hnew))
      | takes hfree _ _ => exact h.held.2 ⟨u, hown⟩ hfree
      | gives _ hnot _ => exact hnot hnew
    intro u v hu hv
    by_cases hut : u = t <;> by_cases hvt : v = t
    · rw [hut, hvt]
    · subst hut
      exact (hothers v hvt ((owning_set_of_ne hvt).1 hv) (owning_set_self.1 hu)).elim
    · subst hvt
      exact (hothers u hut ((owning_set_of_ne hut).1 hu) (owning_set_self.1 hv)).elim
    · exact h.one u v ((owning_set_of_ne hut).1 hu) ((owning_set_of_ne hvt).1 hv)
  · change m.state ≠ .UNLOCKED ↔ _
    cases hmoves with
    | stays hiff hstate =>
      rw [ne_eq, hstate, ← ne_eq, h.held]
      refine exists_congr fun u => ?_
      by_cases hu : u = t
      · subst hu
        rw [owning_set_self, hiff]
      · rw [owning_set_of_ne hu]
    | takes _ hown hstate => exact iff_of_true hstate ⟨t, owning_set_self.2 hown⟩
    | gives hown hnot hstate =>
      refine iff_of_false (not_not_intro hstate) ?_
      rintro ⟨u, hu⟩
      by_cases hut : u = t
      · subst hut
        exact hnot (owning_set_self.1 hu)
      · exact hut (h.one u t ((owning_set_of_ne hut).1 hu) hown)

theorem Core.goto {old : Pc} (h : Core s) (hold : s.pc t = old) (hsame : old.owning = pc.owning ∨ 0 < s.nest t)
    (hpc : PcOk s.mtx t (s.nest t) pc) : Core (s.goto t pc) := by
  refine h.set hpc (.inl ⟨rfl, rfl⟩) (.stays ?_ Iff.rfl)
  rw [Owning, hold]
  rcases hsame with hsame | hnest
  · rw [hsame]
  · exact iff_of_true (.inr hnest) (.inr hnest)

/-- The thread that has the mutex writes into it and keeps it. -/
theorem Core.own (h : Core s) (hown : Owning s t) (hpc : PcOk m t n pc) (hstate : m.state = s.mtx.state)
    (howner : m.owner = some t ∨ m.owner = none) (hkeep : pc.owning = true ∨ 0 < n) : Core (s.set t m pc n) := by
  refine h.set hpc (.inr ⟨hown, ?_⟩) (.stays (iff_of_true hown hkeep) (by rw [hstate]))
  intro u hu hu'
  rcases howner with ho | ho
  · exact hu (Option.some.inj (hu'.symm.trans ho))
  · exact nomatch ho.symm.trans hu'

theorem Core.take (h : Core s) (hpc : PcOk s.mtx t (s.nest t) .setOwner) (hfree : s.mtx.state = .UNLOCKED) :
    Core (s.take t) := by
  refine h.set ?_ (.inl ⟨rfl, rfl⟩) (.takes hfree (.inl rfl) ?_)
  · exact hpc
  · exact State.noConfusion

theorem core_advance (h : Core s) (hs : advance s t = some s') : Core s' := by
  cases hpc : s.pc t <;> simp only [advance, hpc, reduceCtorEq] at hs
  case lockOwner =>
    cases hs
    have ht := pcOk_at h hpc
    by_cases ho : s.mtx.owner = some t
    · rw [if_pos ho]
      have hnest := ht.1.1 ho
      exact h.goto hpc (.inr hnest) ⟨ho, hnest, ht.2 hnest⟩
    · rw [if_neg ho]
      exact h.goto hpc (.inl rfl) ⟨ho, Nat.eq_zero_of_not_pos fun hlt => ho (ht.1.2 hlt)⟩
  case deeper =>
    cases hs
    obtain ⟨ho, hnest, hdepth⟩ := pcOk_at h hpc
    refine h.own (.inr hnest) ⟨iff_of_true ho (Nat.succ_pos _), fun _ => ?_⟩ rfl (.inl ho) (.inr (Nat.succ_pos _))
    rw [hdepth]
  case spin | contend =>
    have ht := pcOk_at h hpc
    by_cases hfree : s.mtx.state = .UNLOCKED
    · rw [if_pos hfree] at hs
      cases hs
      exact h.take ht hfree
    · rw [if_neg hfree] at hs
      cases hs
      split
      · exact h.goto hpc (.inl rfl) ht
      · exact h.goto hpc (.inl rfl) ht
  case setOwner =>
    cases hs
    exact h.own (owning_at hpc rfl) ⟨rfl, (pcOk_at h hpc).2⟩ rfl (.inl rfl) (.inl rfl)
  case setDepth =>
    cases hs
    obtain ⟨ho, -⟩ := pcOk_at h hpc
    exact h.own (owning_at hpc rfl) ⟨iff_of_true ho Nat.one_pos, fun _ => rfl⟩ rfl (.inl ho) (.inr Nat.one_pos)
  case mark woken =>
    have ht := pcOk_at h hpc
    by_cases hlocked : s.mtx.state = .LOCKED
    · rw [if_pos hlocked] at hs
      cases hs
      refine h.set ht (.inl ⟨rfl, rfl⟩) (.stays ?_ ?_)
      · rw [Owning, hpc]
        rfl
      · rw [hlocked]
        exact iff_of_false State.noConfusion State.noConfusion
    · rw [if_neg hlocked] at hs
      cases hs
      exact h.goto hpc (.inl rfl) ht
  case wait woken =>
    have ht := pcOk_at h hpc
    split at hs
    · cases hs
      have hcore : Core (s.goto t .asleep) := h.goto hpc (.inl rfl) ht
      exact hcore.queue _
    · cases hs
      exact h.goto hpc (.inl rfl) ht
  case unlockOwner =>
    cases hs
    have ht := pcOk_at h hpc
    by_cases ho : s.mtx.owner = some t
    · rw [if_pos ho]
      have hnest := ht.1.1 ho
      exact h.goto hpc (.inr hnest) ⟨ho, hnest, ht.2 hnest⟩
    · rw [if_neg ho]
      exact h.goto hpc (.inl rfl) ht
  case decDepth =>
    cases hs
    obtain ⟨ho, hnest, hdepth⟩ := pcOk_at h hpc
    refine h.own (.inr hnest) ⟨ho, ?_⟩ rfl (.inl ho) (.inl rfl)
    rw [hdepth]
  case testDepth =>
    cases hs
    obtain ⟨ho, hdepth⟩ := pcOk_at h hpc
    rw [hdepth]
    by_cases hnest : 0 < s.nest t
    · rw [if_pos hnest]
      exact h.goto hpc (.inr hnest) ⟨iff_of_true ho hnest, fun _ => hdepth⟩
    · rw [if_neg hnest]
      exact h.goto hpc (.inl rfl) ⟨ho, Nat.eq_zero_of_not_pos hnest⟩
  case clearOwner =>
    cases hs
    obtain ⟨-, hnest⟩ := pcOk_at h hpc
    exact h.own (owning_at hpc rfl) ⟨nofun, hnest⟩ rfl (.inr rfl) (.inl rfl)
  case exchange =>
    cases hs
    obtain ⟨ho, hnest⟩ := pcOk_at h hpc
    refine h.set ?_ (.inl ⟨rfl, rfl⟩) (.gives (owning_at hpc rfl) ?_ rfl)
    · split
      · exact ⟨ho, hnest⟩
      · exact pcOk_out ho hnest
    · rw [hnest]
      split <;> simp [Pc.owning]
  case wake =>
    obtain ⟨ho, hnest⟩ := pcOk_at h hpc
    split at hs
    · cases hs
      exact h.goto hpc (.inl rfl) (pcOk_out ho hnest)
    · cases hs

/-! ## Who sleeps -/

/-- What a step of `t` does to the sleepers, the mark and the wake-ups. -/
inductive Stirs (s : System T) (t : T) : System T → Prop
  | quiet (m : mtx_t T) (pc : Pc) (n : Nat) (hpc : pc ≠ .asleep)
      (hmark : s.mtx.state = .CONTESTED → m.state = .CONTESTED ∨ pc.pending = true)
      (hpend : (s.pc t).pending = true → pc.pending = true) : Stirs s t (s.set t m pc n)
  | takes (htakes : (s.pc t).takes = true) (hfree : s.mtx.state = .UNLOCKED) : Stirs s t (s.take t)
  | sleeps (hmark : s.mtx.state = .CONTESTED) : Stirs s t { s.goto t .asleep with queue := s.queue ++ [t] }
  | nobody (hqueue : s.queue = []) : Stirs s t (s.goto t .out)

theorem Stirs.goto (hpc : pc ≠ .asleep) (hpend : (s.pc t).pending = true → pc.pending = true) :
    Stirs s t (s.goto t pc) := .quiet _ _ _ hpc .inl hpend

theorem stirs_advance (hs : advance s t = some s') : s.pc t ≠ .asleep ∧ Stirs s t s' := by
  cases hpc : s.pc t <;> simp only [advance, hpc, reduceCtorEq] at hs
  case lockOwner | unlockOwner | testDepth =>
    cases hs
    refine ⟨nofun, .goto ?_ ?_⟩
    · split <;> exact nofun
    · rw [hpc]
      exact nofun
  case deeper | setOwner | setDepth | decDepth | clearOwner =>
    cases hs
    refine ⟨nofun, .quiet _ _ _ nofun .inl ?_⟩
    rw [hpc]
    exact nofun
  case spin i =>
    refine ⟨nofun, ?_⟩
    split at hs
    · rename_i hfree
      cases hs
      exact .takes (by rw [hpc]; rfl) hfree
    · cases hs
      refine .goto ?_ ?_
      · split <;> exact nofun
      · rw [hpc]
        exact nofun
  case contend woken =>
    refine ⟨nofun, ?_⟩
    split at hs
    · rename_i hfree
      cases hs
      exact .takes (by rw [hpc]; rfl) hfree
    · cases hs
      refine .goto ?_ ?_
      · split <;> exact nofun
      · rw [hpc]
        split <;> exact id
  case mark woken =>
    refine ⟨nofun, ?_⟩
    split at hs
    · cases hs
      refine .quiet _ _ _ nofun (fun _ => .inl rfl) ?_
      rw [hpc]
      exact id
    · cases hs
      refine .goto nofun ?_
      rw [hpc]
      exact id
  case wait woken =>
    refine ⟨nofun, ?_⟩
    split at hs
    · rename_i hmark
      cases hs
      exact .sleeps hmark
    · cases hs
      refine .goto nofun ?_
      rw [hpc]
      exact id
  case exchange =>
    cases hs
    refine ⟨nofun, .quiet _ _ _ ?_ ?_ ?_⟩
    · split <;> exact nofun
    · -- the mark turns into the wake-up that is made next
      intro hmark
      rw [if_pos hmark]
      exact .inr rfl
    · rw [hpc]
      exact nofun
  case wake =>
    refine ⟨nofun, ?_⟩
    split at hs
    · rename_i hqueue
      cases hs
      exact .nobody hqueue
    · cases hs

/-! ## The invariant -/

structure Inv (s : System T) : Prop where
  core : Core s
  queued : ∀ t, t ∈ s.queue ↔ s.pc t = .asleep
  nodup : s.queue.Nodup
  /-- While somebody sleeps, an unlock is going to wake, or a wake-up is under way. -/
  awake : s.queue = [] ∨ s.mtx.state = .CONTESTED ∨ ∃ u, (s.pc u).pending = true

omit [DecidableEq T] in
theorem Inv.right (h : Inv s) : Right s := by
  refine ⟨fun t u ht hu => h.core.one t u (.inr ht) (.inr hu), ?_, ?_⟩
  · intro t hnest
    have hown : Owning s t := .inr hnest
    have hpcs := h.core.pcs t
    refine and_assoc.1 ⟨?_, h.core.held.2 ⟨t, hown⟩⟩
    cases hpc : s.pc t <;> rw [hpc] at hpcs
    case out | lockOwner | unlockOwner => exact ⟨hpcs.1.2 hnest, hpcs.2 hnest⟩
    case deeper | decDepth => exact ⟨hpcs.1, hpcs.2.2⟩
    case testDepth => exact hpcs
    all_goals exact absurd hpcs.2 hnest.ne'
  · intro t ht
    rcases h.awake with hq | hmark | hpend
    · have hmem := (h.queued t).2 ht
      rw [hq] at hmem
      cases hmem
    · refine .inl ⟨hmark, h.core.held.1 ?_⟩
      rw [hmark]
      exact State.noConfusion
    · exact .inr hpend

theorem queued_set (h : ∀ u, u ∈ s.queue ↔ s.pc u = .asleep) (hold : s.pc t ≠ .asleep) (hpc : pc ≠ .asleep) (u : T) :
    u ∈ (s.set t m pc n).queue ↔ (s.set t m pc n).pc u = .asleep := by
  by_cases hu : u = t
  · subst hu
    rw [set_pc_self]
    exact iff_of_false (fun hmem => hold ((h u).1 hmem)) hpc
  · rw [set_pc_of_ne hu]
    exact h u

theorem pending_set (hu : (s.pc u).pending = true) (hpend : (s.pc t).pending = true → pc.pending = true) :
    ((s.set t m pc n).pc u).pending = true := by
  by_cases hut : u = t
  · subst hut
    rw [set_pc_self]
    exact hpend hu
  · rw [set_pc_of_ne hut]
    exact hu

theorem inv_advance (h : Inv s) (ha : Careful s (.go t)) (hs : advance s t = some s') : Inv s' := by
  have hcore := core_advance h.core hs
  obtain ⟨hold, hstirs⟩ := stirs_advance hs
  cases hstirs with
  | quiet m pc n hpc hmark hpend =>
    refine ⟨hcore, queued_set h.queued hold hpc, h.nodup, ?_⟩
    rcases h.awake with hq | hstate | ⟨u, hu⟩
    · exact .inl hq
    · refine .inr ((hmark hstate).imp_right fun hp => ⟨t, ?_⟩)
      rw [set_pc_self]
      exact hp
    · exact .inr (.inr ⟨u, pending_set hu hpend⟩)
  | takes htakes hfree =>
    refine ⟨hcore, queued_set h.queued hold nofun, h.nodup, ?_⟩
    -- the condition: the mark is gone, so another wake-up has to be there
    refine (ha htakes hfree).imp_right fun ⟨u, hu, hpend⟩ => .inr ⟨u, ?_⟩
    rw [System.take, set_pc_of_ne hu]
    exact hpend
  | sleeps hmark =>
    refine ⟨hcore, ?_, ?_, .inr (.inl hmark)⟩
    · intro u
      change u ∈ s.queue ++ [t] ↔ (s.goto t .asleep).pc u = .asleep
      rw [mem_append, mem_singleton, System.goto]
      by_cases hu : u = t
      · subst hu
        rw [set_pc_self]
        exact iff_of_true (.inr rfl) rfl
      · rw [set_pc_of_ne hu, h.queued u]
        exact or_iff_left hu
    · exact h.nodup.append (nodup_singleton t)
        (disjoint_singleton.2 fun hmem => hold ((h.queued t).1 hmem))
  | nobody hqueue => exact ⟨hcore, queued_set h.queued hold nofun, h.nodup, .inl hqueue⟩

/-- A call starts: the thread only gets a new place. -/
theorem inv_call (h : Inv s) (hold : s.pc t = .out) (hown : pc.owning = false) (hpc : pc ≠ .asleep)
    (hok : PcOk s.mtx t (s.nest t) pc) : Inv (s.goto t pc) := by
  refine ⟨h.core.goto hold (.inl hown.symm) hok, queued_set h.queued ?_ hpc, h.nodup, ?_⟩
  · rw [hold]
    exact nofun
  · refine h.awake.imp_right (Or.imp_right fun ⟨u, hu⟩ => ⟨u, pending_set hu ?_⟩)
    rw [hold]
    exact nofun

theorem inv_wake (h : Inv s) (hpc : s.pc t = .wake) (hu : u ∈ s.queue) :
    Inv { (s.goto t .out).goto u (.contend true) with queue := s.queue.erase u } := by
  have hasleep := (h.queued u).1 hu
  have hut : u ≠ t := by
    intro heq
    rw [heq, hpc] at hasleep
    cases hasleep
  obtain ⟨ho, hnest⟩ := pcOk_at h.core hpc
  obtain ⟨ho', hnest'⟩ := pcOk_at h.core hasleep
  have hcore : Core (s.goto t .out) := h.core.goto hpc (.inl rfl) (pcOk_out ho hnest)
  have hpcu : (s.goto t .out).pc u = .asleep := by
    rw [System.goto, set_pc_of_ne hut]
    exact hasleep
  have hnestu : (s.goto t .out).nest u = 0 := by
    rw [System.goto, set_nest_of_ne hut]
    exact hnest'
  have hcore' : Core ((s.goto t .out).goto u (.contend true)) := hcore.goto hpcu (.inl rfl) ⟨ho', hnestu⟩
  refine ⟨hcore'.queue _, ?_, h.nodup.erase u, .inr (.inr ⟨u, ?_⟩)⟩
  · intro v
    change v ∈ s.queue.erase u ↔ ((s.goto t .out).goto u (.contend true)).pc v = .asleep
    rw [h.nodup.mem_erase_iff]
    by_cases hvu : v = u
    · subst hvu
      rw [System.goto, set_pc_self]
      exact iff_of_false (fun hmem => hmem.1 rfl) nofun
    · rw [System.goto, set_pc_of_ne hvu]
      have hold : s.pc t ≠ .asleep := by
        rw [hpc]
        exact nofun
      have hout : Pc.out ≠ .asleep := nofun
      exact (and_iff_right hvu).trans (queued_set h.queued hold hout v)
  · change (((s.goto t .out).goto u (.contend true)).pc u).pending = true
    rw [System.goto, set_pc_self]
    rfl

omit [DecidableEq T] in
theorem inv_init : Inv (init : System T) := by
  refine ⟨⟨fun t => pcOk_out nofun rfl, ?_, ?_⟩, ?_, nodup_nil, .inl rfl⟩
  · intro t u ht
    exact absurd ht (by simp [Owning, init, Pc.owning])
  · refine iff_of_false (not_not_intro rfl) ?_
    rintro ⟨t, ht⟩
    exact absurd ht (by simp [Owning, init, Pc.owning])
  · intro t
    exact iff_of_false not_mem_nil nofun

theorem inv_step {a : Action T} (h : Inv s) (ha : Careful s a) (hs : step s a = some s') : Inv s' := by
  cases a with
  | lock | unlock =>
    simp only [step, Option.ite_none_right_eq_some] at hs
    obtain ⟨hout, heq⟩ := hs
    cases heq
    have hok := pcOk_at h.core hout
    exact inv_call h hout rfl nofun hok
  | go t => exact inv_advance h ha hs
  | wake t u =>
    simp only [step, Option.ite_none_right_eq_some] at hs
    obtain ⟨⟨hpc, hmem⟩, heq⟩ := hs
    cases heq
    exact inv_wake h hpc hmem

/-! ## The mutex over whole runs -/

/-- Taking the mutex while somebody sleeps and nobody else is woken forgets the sleeper. -/
theorem careless_take (h : Inv s) {a : Action T} (ha : ¬ Careful s a) : ∃ s', step s a = some s' ∧ ¬ Right s' := by
  cases a with
  | lock | unlock | wake => exact absurd trivial ha
  | go t =>
    simp only [Careful, Classical.not_imp, not_or, not_exists, not_and] at ha
    obtain ⟨htakes, hfree, hqueue, hnone⟩ := ha
    refine ⟨s.take t, ?_, fun hright => ?_⟩
    · cases hpc : s.pc t <;> rw [hpc] at htakes
      case spin i => simp only [step, advance, hpc, if_pos hfree]
      case contend woken => simp only [step, advance, hpc, if_pos hfree]
      all_goals exact nomatch htakes
    · obtain ⟨v, hv⟩ := exists_mem_of_ne_nil _ hqueue
      have hasleep := (h.queued v).1 hv
      have hvt : v ≠ t := by
        intro heq
        rw [← heq, hasleep] at htakes
        cases htakes
      have hstill : (s.take t).pc v = .asleep := by
        rw [System.take, set_pc_of_ne hvt]
        exact hasleep
      rcases hright.awake v hstill with ⟨hmark, -⟩ | ⟨u, hu⟩
      · cases hmark
      · by_cases hut : u = t
        · rw [hut, System.take, set_pc_self] at hu
          cases hu
        · rw [System.take, set_pc_of_ne hut] at hu
          exact hnone u hut hu

/-- In every interleaving the mutex excludes, is balanced and wakes who sleeps, exactly if
no thread takes it while somebody sleeps and no other wake-up is under way. -/
theorem mtx_right_iff (acts : List (Action T)) :
    Always step Right (init : System T) acts ↔ Along step Careful init acts := by
  constructor
  · intro h
    exact h.along (fun _ _ _ hi ha hs => inv_step hi ha hs) (fun _ _ hi _ ha => careless_take hi ha) inv_init
  · intro h
    exact (h.always (fun _ _ _ hi ha hs => inv_step hi ha hs) inv_init).mono fun _ hi => hi.right

/-- `depth` has 64 bits in the source, and a run of fewer steps does not wrap it. -/
theorem depth_le_length {acts : List (Action T)} (h : run step init acts = some s) : s.mtx.depth ≤ acts.length := by
  have hle := run_le_length (f := fun s : System T => s.mtx.depth) (fun s a s' hs => ?_) h
  · simpa [init] using hle
  · cases a with
    | go t =>
      simp only [step, advance] at hs
      split at hs <;> (try split_ifs at hs) <;> cases hs <;> simp [System.goto, System.set, System.take]
      omega
    | _ =>
      simp only [step] at hs
      split_ifs at hs
      cases hs
      simp [System.goto, System.set]

/-- `t` takes the free mutex at once. -/
def lockFree (t : T) : List (Action T) := .lock t :: replicate 4 (.go t)

/-- `t` spins in vain and goes to sleep: `k` steps after the spinning. -/
def lockHeld (t : T) (k : Nat) : List (Action T) := .lock t :: replicate (1 + MTX_SPIN_COUNT + k) (.go t)

-- one thread sleeps, is woken and takes the mutex: nobody is forgotten
example : Along step Careful (init : System (Fin 2)) (lockFree 0 ++ lockHeld 1 3 ++
    (.unlock 0 :: replicate 5 (.go 0)) ++ [.wake 0 1, .go 1, .go 1, .go 1]) := by
  decide +kernel

/-- Two threads sleep while a third one has the mutex. It wakes the first, which takes the
mutex and forgets the second. -/
def forgetful : List (Action (Fin 3)) :=
  lockFree 0 ++ lockHeld 1 3 ++ lockHeld 2 2 ++ (.unlock 0 :: replicate 5 (.go 0)) ++ [.wake 0 1, .go 1]

theorem forgetful_not_right : ¬ Always step Right (init : System (Fin 3)) forgetful := by
  refine not_always (fun s => s.pc 2 = .asleep ∧ s.mtx.state = .LOCKED ∧ ∀ u, (s.pc u).pending = false)
    (by decide +kernel) ?_
  rintro s ⟨hasleep, hstate, hnone⟩ h
  rcases h.awake 2 hasleep with ⟨hmark, -⟩ | ⟨u, hu⟩
  · rw [hstate] at hmark
    cases hmark
  · rw [hnone u] at hu
    cases hu

end Patchwork.Mtx
