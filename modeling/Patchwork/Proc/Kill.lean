import Patchwork.Lib.Runs
/-!
# Killing a process while it gets threads

`process_kill` sets `PROCESS_DYING` and walks the list of threads once, without its lock.
`thread_new` looks at the flag first and enters the thread into the list much later. A
thread that is entered when the walk is over gets no note, so every thread is reached
exactly if no call of `thread_new` that has found the flag clear is overtaken by the
whole walk.

Each call of `thread_new` is named by the thread it makes. The number of the thread, its
stacks and contexts do not matter here, but that making them can fail does.
-/

namespace Patchwork.Kill

open List Option Function Lib

/-- How far a call of `thread_new` has come. -/
inductive Call where
  | idle
  | allocated
  /-- The flag was clear. -/
  | tested
  | entered
  | failed
deriving Repr, DecidableEq

/-- How far `process_kill` has come: the next thread of its walk. -/
inductive Walk where
  | idle
  | before (i : Nat)
  | ended
deriving Repr, DecidableEq

structure System (T : Type) where
  /-- `PROCESS_DYING`. -/
  dying : Bool
  threads : List T
  count : Nat
  /-- `NOTE_QUEUE_RECEIVED_KILL`. -/
  killed : T → Bool
  call : T → Call
  walk : Walk

inductive Action (T : Type) where
  /-- `cache_alloc`. -/
  | alloc (t : T) (ok : Bool)
  | test (t : T)
  /-- A stack or a context of the thread cannot be made. -/
  | fail (t : T)
  /-- The section of `threads.lock`. -/
  | enter (t : T)
  | process_kill
  /-- The walk sends the note to the next thread, or ends. -/
  | next

variable {T : Type} [DecidableEq T]

/-- A process with some threads. -/
def init (threads : List T) : System T :=
  { dying := false, threads := threads, count := threads.length, killed := fun _ => false, walk := .idle
    call := fun t => if t ∈ threads then .entered else .idle }

def System.goto (s : System T) (t : T) (call : Call) : System T :=
  { s with call := update s.call t call }

def step (s : System T) : Action T → Option (System T)
  | .alloc t ok => if s.call t = .idle then some (s.goto t (if ok then .allocated else .failed)) else none
  | .test t => if s.call t = .allocated then some (s.goto t (if s.dying then .failed else .tested)) else none
  | .fail t => if s.call t = .tested then some (s.goto t .failed) else none
  | .enter t =>
    if s.call t = .tested then
      some { s.goto t .entered with threads := s.threads ++ [t], count := s.count + 1 }
    else none
  | .process_kill =>
    -- a second call finds the flag set and returns
    if s.dying then some s else some { s with dying := true, walk := .before 0 }
  | .next =>
    match s.walk with
    | .before i =>
      match s.threads[i]? with
      | some t => some { s with killed := update s.killed t true, walk := .before (i + 1) }
      | none => some { s with walk := .ended }
    | _ => none

/-- When `process_kill` has sent its notes, every thread of the process has got one. -/
def Reached (s : System T) : Prop := s.walk = .ended → ∀ t ∈ s.threads, s.killed t = true

/-- No thread is entered into the list after the walk. -/
def Early (s : System T) : Action T → Prop
  | .enter t => s.call t = .tested → s.walk ≠ .ended
  | _ => True

instance (s : System T) : (a : Action T) → Decidable (Early s a)
  | .enter t => inferInstanceAs (Decidable (s.call t = .tested → s.walk ≠ .ended))
  | .alloc _ _ | .test _ | .fail _ | .process_kill | .next => .isTrue trivial

structure Inv (s : System T) : Prop where
  count : s.count = s.threads.length
  inside : ∀ i, s.walk = .before i → i ≤ s.threads.length
  /-- Behind the walk, every thread has its note. -/
  behind : ∀ i, s.walk = .before i → ∀ j t, j < i → s.threads[j]? = some t → s.killed t = true
  reached : Reached s

variable {s s' : System T} {t : T}

theorem inv_init (threads : List T) : Inv (init threads) := ⟨rfl, nofun, nofun, nofun⟩

theorem inv_goto {call : Call} (h : Inv s) : Inv (s.goto t call) := ⟨h.count, h.inside, h.behind, h.reached⟩

theorem inv_enter (h : Inv s) (hearly : s.walk ≠ .ended) :
    Inv { s.goto t .entered with threads := s.threads ++ [t], count := s.count + 1 } := by
  refine ⟨?_, fun i hwalk => ?_, fun i hwalk j u hj hu => ?_, fun hover => absurd hover hearly⟩
  · change s.count + 1 = (s.threads ++ [t]).length
    rw [h.count, length_append, length_singleton]
  · exact Nat.le_trans (h.inside i hwalk) (by simp)
  · -- the new thread stands behind all others, so the walk has not passed it
    have hlt : j < s.threads.length := Nat.lt_of_lt_of_le hj (h.inside i hwalk)
    have hold : s.threads[j]? = some u := (getElem?_append_left hlt).symm.trans hu
    exact h.behind i hwalk j u hj hold

omit [DecidableEq T] in
theorem inv_kill (h : Inv s) : Inv { s with dying := true, walk := .before 0 } := by
  refine ⟨h.count, fun i hwalk => ?_, fun i hwalk j u hj => ?_, nofun⟩
  · cases hwalk
    exact Nat.zero_le _
  · cases hwalk
    exact absurd hj (Nat.not_lt_zero j)

theorem inv_send {i : Nat} (h : Inv s) (hwalk : s.walk = .before i) (ht : s.threads[i]? = some t) :
    Inv { s with killed := update s.killed t true, walk := .before (i + 1) } := by
  refine ⟨h.count, fun k hk => ?_, fun k hk j u hj hu => ?_, nofun⟩
  · cases hk
    exact (List.getElem?_eq_some_iff.1 ht).1
  · cases hk
    change update s.killed t true u = true
    rw [update_apply]
    split
    · rfl
    · rename_i hne
      rcases Nat.lt_succ_iff_lt_or_eq.1 hj with hlt | heq
      · exact h.behind i hwalk j u hlt hu
      · rw [heq] at hu
        exact absurd (Option.some.inj (hu.symm.trans ht)) hne

omit [DecidableEq T] in
theorem inv_over {i : Nat} (h : Inv s) (hwalk : s.walk = .before i) (hend : s.threads[i]? = none) :
    Inv { s with walk := .ended } := by
  refine ⟨h.count, nofun, nofun, fun _ u hu => ?_⟩
  obtain ⟨j, hj⟩ := List.mem_iff_getElem?.1 hu
  have hlt : j < i := Nat.lt_of_lt_of_le (List.getElem?_eq_some_iff.1 hj).1 (List.getElem?_eq_none_iff.1 hend)
  exact h.behind i hwalk j u hlt hj

/-- Whose thread has no note is not entered yet. -/
structure Unsent (s : System T) : Prop where
  killed : ∀ t, s.killed t = true → t ∈ s.threads
  entered : ∀ t, t ∈ s.threads → s.call t = .entered

theorem unsent_init (threads : List T) : Unsent (init threads) := ⟨nofun, fun _ ht => if_pos ht⟩

theorem unsent_goto {call : Call} (h : Unsent s) (hold : s.call t ≠ .entered) : Unsent (s.goto t call) := by
  refine ⟨h.killed, fun u hu => ?_⟩
  have hne : u ≠ t := by
    intro heq
    rw [heq] at hu
    exact hold (h.entered t hu)
  exact (update_of_ne hne ..).trans (h.entered u hu)

theorem inv_step {a : Action T} (h : Inv s ∧ Unsent s) (ha : Early s a) (hs : step s a = some s') :
    Inv s' ∧ Unsent s' := by
  obtain ⟨h, hu⟩ := h
  have hne : ∀ {t : T} {call : Call}, s.call t = call → call ≠ .entered → s.call t ≠ .entered := by
    intro t call heq hne
    rw [heq]
    exact hne
  cases a <;> simp only [step, ite_none_right_eq_some, Option.some.injEq] at hs
  case alloc | test | fail =>
    rw [← hs.2]
    exact ⟨inv_goto h, unsent_goto hu (hne hs.1 nofun)⟩
  case enter t =>
    rw [← hs.2]
    refine ⟨inv_enter h (ha hs.1), fun u hk => mem_append_left _ (hu.killed u hk), fun u hm => ?_⟩
    rcases mem_append.1 hm with hm | hm
    · exact (unsent_goto hu (hne hs.1 nofun)).entered u hm
    · rw [mem_singleton.1 hm]
      exact update_self ..
  case process_kill =>
    split at hs
    · cases hs
      exact ⟨h, hu⟩
    · cases hs
      exact ⟨inv_kill h, hu.killed, hu.entered⟩
  case next =>
    cases hwalk : s.walk <;> simp only [hwalk, reduceCtorEq] at hs
    case before i =>
      cases ht : s.threads[i]? <;> simp only [ht] at hs <;> cases hs
      case some t =>
        refine ⟨inv_send h hwalk ht, fun u hk => ?_, hu.entered⟩
        by_cases hut : u = t
        · rw [hut]
          exact mem_of_getElem? ht
        · exact hu.killed u ((update_of_ne hut ..).symm.trans hk)
      case none => exact ⟨inv_over h hwalk ht, hu.killed, hu.entered⟩

/-- A thread that is entered after the walk has no note. -/
theorem late_enter {a : Action T} (h : Unsent s) (ha : ¬ Early s a) : ∃ s', step s a = some s' ∧ ¬ Reached s' := by
  cases a with
  | enter t =>
    simp only [Early, Classical.not_imp, not_not] at ha
    obtain ⟨htested, hover⟩ := ha
    refine ⟨_, if_pos htested, fun hr => ?_⟩
    have hkilled := hr hover t (mem_append_right _ (mem_singleton_self t))
    have hentered := h.entered t (h.killed t hkilled)
    rw [htested] at hentered
    cases hentered
  | _ => exact absurd trivial ha

/-- In every interleaving, every thread of the killed process gets the note exactly if no
thread is entered after the walk. -/
theorem kill_reaches_iff (threads : List T) (acts : List (Action T)) :
    Always step Reached (init threads) acts ↔ Along step Early (init threads) acts := by
  have hinit : Inv (init threads) ∧ Unsent (init threads) := ⟨inv_init threads, unsent_init threads⟩
  constructor
  · exact Always.along (I := fun s => Inv s ∧ Unsent s) (fun _ _ _ => inv_step) (fun _ _ hi _ => late_enter hi.2) hinit
  · intro h
    exact (h.always (I := fun s => Inv s ∧ Unsent s) (fun _ _ _ => inv_step) hinit).mono fun _ hi => hi.1.reached

-- a thread that is entered during the walk stands before it
example : Along step Early (init [0]) ([.alloc 1 true, .test 1, .process_kill, .next, .enter 1, .next, .next] :
    List (Action (Fin 2))) := by
  decide +kernel

/-- Thread 1 is made while the process is killed: its call has seen the flag clear. -/
def overtaken : List (Action (Fin 2)) :=
  [.alloc 1 true, .test 1, .process_kill, .next, .next, .enter 1]

theorem overtaken_not_reached : ¬ Always step Reached (init [0]) overtaken := by
  refine not_always (fun s => s.walk = .ended ∧ 1 ∈ s.threads ∧ s.killed 1 = false) (by decide +kernel) ?_
  rintro s ⟨hover, hmem, hnone⟩ h
  have hkilled := h hover 1 hmem
  rw [hnone] at hkilled
  cases hkilled

end Patchwork.Kill
