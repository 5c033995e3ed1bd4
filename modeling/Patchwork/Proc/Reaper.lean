import Mathlib
/-!
# The reaper

A pass of `reaper_thread` over the list of zombies. A process that still has threads goes
back to the end of the list the loop empties, so the pass goes on, with the lock of the
list taken and interrupts disabled, until every zombie has lost its last thread. It never
leaves a process for a later pass.

Threads run on other CPUs meanwhile: `counts n` are the thread counts that the `n`-th
round of the loop reads. Nobody enters a zombie into the list during the pass, since
`reaper_push` needs the lock.
-/

namespace Patchwork.Reaper

open List

def CLOCKS_NEVER : Nat := 2 ^ 64 - 1

def PROCESS_REAPER_INTERVAL : Nat := 1000000000

/-- The list of the reaper and the time of its next pass. -/
structure Queue (P : Type) where
  zombies : List P
  nextReaperTime : Nat
deriving DecidableEq

variable {P : Type}

def reaper_push (uptime : Nat) (r : Queue P) (process : P) : Queue P :=
  { zombies := r.zombies ++ [process], nextReaperTime := (uptime + PROCESS_REAPER_INTERVAL) % 2 ^ 64 }

/-- The first loop, from the `n`-th round on: the processes to remove. `none` if it goes
on for `fuel` rounds. -/
def collect (counts : Nat → P → Nat) : Nat → Nat → List P → List P → Option (List P)
  | _, _, [], localZombies => some localZombies
  | 0, _, _ :: _, _ => none
  | fuel + 1, n, process :: zombies, localZombies =>
    if 0 < counts n process then collect counts fuel (n + 1) (zombies ++ [process]) localZombies
    else collect counts fuel (n + 1) zombies (localZombies ++ [process])

/-- One round of `reaper_thread`, with the processes it removes in their order. -/
def reaper_pass (counts : Nat → P → Nat) (uptime fuel : Nat) (r : Queue P) : Option (Queue P × List P) :=
  if uptime < r.nextReaperTime then some (r, [])
  else (collect counts fuel 0 r.zombies []).map fun localZombies =>
    ({ zombies := [], nextReaperTime := CLOCKS_NEVER }, localZombies)

/-- The pass ends, and the first look at a process decides: it is removed if it has no
threads then, and stays in the list if it has some. The loop takes the processes from the
front and puts them back at the end, so that the `i`-th one is first looked at in round
`i`. -/
def PassRight (counts : Nat → P → Nat) (uptime : Nat) (r : Queue P) : Prop :=
  ∃ fuel r' removed, reaper_pass counts uptime fuel r = some (r', removed) ∧
    removed.Perm ((r.zombies.zipIdx.filter fun x => counts x.2 x.1 = 0).map Prod.fst) ∧
    r'.zombies.Perm ((r.zombies.zipIdx.filter fun x => 0 < counts x.2 x.1).map Prod.fst)

/-! ## The loop -/

variable {counts : Nat → P → Nat} {uptime : Nat} {r : Queue P}

/-- If the loop ends, then it has found every zombie without threads once. -/
theorem collect_some {fuel n : Nat} {zombies localZombies removed : List P}
    (h : collect counts fuel n zombies localZombies = some removed) : ∀ p ∈ zombies, ∃ m, counts m p = 0 := by
  fun_induction collect counts fuel n zombies localZombies with
  | case1 => exact fun _ hp => absurd hp not_mem_nil
  | case2 => cases h
  | case3 fuel n process zombies localZombies _ ih =>
    -- put back: the same processes
    exact fun p hp => ih h p ((perm_append_singleton process zombies).mem_iff.2 hp)
  | case4 fuel n process zombies localZombies hnone ih =>
    intro p hp
    rcases mem_cons.1 hp with rfl | hp
    · exact ⟨n, Nat.eq_zero_of_not_pos hnone⟩
    · exact ih h p hp

/-- Processes that have no threads when the loop gets to them are removed in one round each. -/
theorem collect_ready {n : Nat} {zombies : List P} (h : ∀ x ∈ zombies.zipIdx n, counts x.2 x.1 = 0)
    (localZombies : List P) :
    collect counts zombies.length n zombies localZombies = some (localZombies ++ zombies) := by
  induction zombies generalizing n localZombies with
  | nil => rw [append_nil, length_nil, collect]
  | cons process zombies ih =>
    rw [zipIdx_cons] at h
    have hnone : ¬ 0 < counts n process := Nat.not_lt.2 (Nat.le_of_eq (h _ mem_cons_self))
    rw [length_cons, collect, if_neg hnone, ih fun x hx => h x (mem_cons_of_mem _ hx), append_assoc, singleton_append]

/-! ## The pass -/

theorem pass_due (hdue : r.nextReaperTime ≤ uptime) (fuel : Nat) :
    reaper_pass counts uptime fuel r = (collect counts fuel 0 r.zombies []).map fun localZombies =>
      ({ zombies := [], nextReaperTime := CLOCKS_NEVER }, localZombies) :=
  if_neg (Nat.not_lt.2 hdue)

/-- A pass that is due does what it should exactly if no zombie has threads when the pass
first gets to it. -/
theorem reaper_pass_right_iff (counts : Nat → P → Nat) (uptime : Nat) (r : Queue P)
    (hdue : r.nextReaperTime ≤ uptime) :
    PassRight counts uptime r ↔ ∀ x ∈ r.zombies.zipIdx, counts x.2 x.1 = 0 := by
  constructor
  · rintro ⟨fuel, r', removed, hpass, -, hkept⟩
    rw [pass_due hdue, Option.map_eq_some_iff] at hpass
    obtain ⟨localZombies, -, heq⟩ := hpass
    -- the loop leaves nothing in the list, so nothing was to stay there
    rw [← (Prod.mk.inj heq).1, nil_perm, map_eq_nil_iff, filter_eq_nil_iff] at hkept
    intro x hx
    simpa using hkept x hx
  · intro hready
    have hcollect := collect_ready hready []
    refine ⟨r.zombies.length, { zombies := [], nextReaperTime := CLOCKS_NEVER }, r.zombies, ?_, ?_, ?_⟩
    · rw [pass_due hdue, hcollect, Option.map_some, nil_append]
    · have hall : (r.zombies.zipIdx.filter fun x => counts x.2 x.1 = 0) = r.zombies.zipIdx :=
        filter_eq_self.2 fun x hx => decide_eq_true (hready x hx)
      rw [hall, zipIdx_map_fst]
    · have hnone : (r.zombies.zipIdx.filter fun x => 0 < counts x.2 x.1) = [] := by
        refine filter_eq_nil_iff.2 fun x hx => ?_
        rw [hready x hx]
        exact of_decide_eq_true rfl
      rw [hnone, map_nil]

/-- Three processes are killed one after the other. -/
def killed : Queue Nat :=
  reaper_push 2 (reaper_push 1 (reaper_push 0 { zombies := [], nextReaperTime := CLOCKS_NEVER } 0) 1) 2

/-- Each one has a thread that exits just before the pass gets to it. -/
theorem justExited_right : PassRight (fun n p => if n < p then 1 else 0) (2 * PROCESS_REAPER_INTERVAL) killed :=
  (reaper_pass_right_iff _ _ killed (by decide)).2 (by decide)

/-- The second one has a thread that does not exit during the pass, which then never ends. -/
theorem lasting_thread_not_right :
    ¬ PassRight (fun _ p => if p = 1 then 1 else 0) (2 * PROCESS_REAPER_INTERVAL) killed := by
  rintro ⟨fuel, r', removed, hpass, -⟩
  rw [pass_due (by decide), Option.map_eq_some_iff] at hpass
  obtain ⟨localZombies, hcollect, -⟩ := hpass
  obtain ⟨m, hm⟩ := collect_some hcollect 1 (by decide)
  cases hm

end Patchwork.Reaper
