import Patchwork.Sched.Wait
/-!
# The timeouts of a CPU

The `blockedThreads` of one CPU, each thread with its deadline, which stays as it
is while the thread is blocked. A step is what one function does under the lock.
-/

namespace Patchwork.Timeouts

open List Lib Patchwork.Wait

variable {T : Type} {threads l : List (T × Nat)} {x : T × Nat}

inductive Action (T : Type) where
  /-- `wait_block_finalize`, with what it returns. -/
  | finalize (t : T) (deadline : Nat) (blocks : Bool)
  | unblock (t : T)
  /-- `wait_check_timeouts` at the time `now`; turn `i` reads the clock `late i` later. -/
  | check (now : Nat) (late : Nat → Nat)

/-- The loop of `wait_check_timeouts` from turn `i` on. -/
def wait_check_timeouts (uptime : Nat → Nat) : Nat → List (T × Nat) → List (T × Nat)
  | _, [] => []
  | i, x :: rest => if x.2 > uptime i then x :: rest else wait_check_timeouts uptime (i + 1) rest

/-- The thread that blocks was running, so it is not in the list. -/
def step [DecidableEq T] (threads : List (T × Nat)) : Action T → Option (List (T × Nat))
  | .finalize t deadline blocks =>
    if t ∉ threads.map Prod.fst ∧ deadline ≤ CLOCKS_NEVER then
      let threads := insertBlocked Prod.snd threads (t, deadline)
      some (if blocks then threads else threads.filter (·.1 ≠ t))
    else none
  | .unblock t => some (threads.filter (·.1 ≠ t))
  | .check now late => some (wait_check_timeouts (now + late ·) 0 threads)

/-- `CLOCKS_NEVER` is the greatest deadline, so the threads that have it are last. -/
def Ordered (threads : List (T × Nat)) : Prop :=
  threads.Pairwise (fun x y => x.2 ≤ y.2) ∧ ∀ x ∈ threads, x.2 ≤ CLOCKS_NEVER

/-- What a step makes of the list. -/
def Effect (threads : List (T × Nat)) : Action T → List (T × Nat) → Prop
  | .finalize t deadline true, l => l.Perm ((t, deadline) :: threads)
  | .finalize _ _ false, l => l.Perm threads
  | .unblock t, l => ∀ x, x ∈ l ↔ x ∈ threads ∧ x.1 ≠ t
  | .check now late, l => (∀ x ∈ l, now < x.2) ∧ ∀ x ∈ threads, (∀ i, now + late i < x.2) → x ∈ l

theorem Ordered.sublist (h : Ordered threads) (hsub : l.Sublist threads) : Ordered l :=
  ⟨h.1.sublist hsub, fun x hx => h.2 x (hsub.subset hx)⟩

theorem Ordered.later (h : Ordered threads) (now : Nat) : ∀ x ∈ threads.dropWhile (·.2 ≤ now), now < x.2 := by
  induction threads with
  | nil => nofun
  | cons y rest ih =>
    intro x hx
    by_cases hle : y.2 ≤ now
    · rw [dropWhile_cons_of_pos (by simpa using hle)] at hx
      exact ih (h.sublist (sublist_cons_self y rest)) x hx
    · rw [dropWhile_cons_of_neg (by simpa using hle)] at hx
      rcases mem_cons.1 hx with rfl | hx
      · omega
      · have := (pairwise_cons.1 h.1).1 x hx
        omega

/-- The append and the scan put the thread behind the deadlines that are not later. -/
theorem Ordered.insertBlocked [DecidableEq T] (h : Ordered threads) :
    ∃ before after, threads = before ++ after ∧ insertBlocked Prod.snd threads x = before ++ x :: after ∧
      (∀ y ∈ before, y.2 ≤ x.2) ∧ ∀ y ∈ after, x.2 < y.2 := by
  unfold Wait.insertBlocked
  split
  · rename_i hend
    refine ⟨threads, [], (append_nil _).symm, rfl, fun y hy => ?_, nofun⟩
    rcases hend with hnever | hlast
    · exact hnever ▸ h.2 y hy
    · rcases eq_nil_or_concat threads with rfl | ⟨front, last, rfl⟩
      · cases hy
      · rw [concat_eq_append] at h hlast hy
        have hle : last.2 ≤ x.2 := hlast last (by simp)
        rcases mem_append.1 hy with hy | hy
        · exact Nat.le_trans ((pairwise_append.1 h.1).2.2 y hy last (mem_singleton_self _)) hle
        · exact mem_singleton.1 hy ▸ hle
  · rename_i hend
    refine ⟨_, _, takeWhile_append_dropWhile.symm, if_neg fun hnil => ?_,
      fun y hy => by simpa using mem_takeWhile_imp hy, h.later _⟩
    rw [dropWhile_eq_nil_iff] at hnil
    exact hend (.inr fun last hl => by simpa using hnil last (mem_of_getLast? hl))

theorem Ordered.insert [DecidableEq T] (h : Ordered threads) (hx : x.2 ≤ CLOCKS_NEVER) :
    (Wait.insertBlocked Prod.snd threads x).Perm (x :: threads) ∧ Ordered (Wait.insertBlocked Prod.snd threads x) := by
  obtain ⟨before, after, rfl, heq, hbefore, hafter⟩ := h.insertBlocked (x := x)
  obtain ⟨hb, ha, hacross⟩ := pairwise_append.1 h.1
  have hperm : (before ++ x :: after).Perm (x :: (before ++ after)) := perm_middle
  rw [heq]
  refine ⟨hperm, pairwise_append.2 ⟨hb, pairwise_cons.2 ⟨fun y hy => (hafter y hy).le, ha⟩, fun y hy z hz => ?_⟩,
    fun y hy => ?_⟩
  · rcases mem_cons.1 hz with rfl | hz
    · exact hbefore y hy
    · exact hacross y hy z hz
  · rcases mem_cons.1 (hperm.mem_iff.1 hy) with rfl | hy
    · exact hx
    · exact h.2 y hy

/-- The clock does not go back: every thread whose time has come is removed. -/
theorem check_suffix (now : Nat) (late : Nat → Nat) (threads : List (T × Nat)) :
    ∀ i, wait_check_timeouts (now + late ·) i threads <:+ threads.dropWhile (·.2 ≤ now) := by
  induction threads with
  | nil => exact fun _ => suffix_rfl
  | cons x rest ih =>
    intro i
    rw [wait_check_timeouts]
    by_cases hle : x.2 ≤ now
    · rw [if_neg (by omega), dropWhile_cons_of_pos (by simpa using hle)]
      exact ih (i + 1)
    · rw [dropWhile_cons_of_neg (by simpa using hle)]
      split
      · exact suffix_rfl
      · exact ((ih (i + 1)).trans (dropWhile_suffix _)).trans (suffix_cons x rest)

/-- A thread whose time has come at no turn stays. -/
theorem check_keeps {uptime : Nat → Nat} (hx : x ∈ threads) (hlater : ∀ i, uptime i < x.2) (i : Nat) :
    x ∈ wait_check_timeouts uptime i threads := by
  induction threads generalizing i with
  | nil => cases hx
  | cons y rest ih =>
    rw [wait_check_timeouts]
    split
    · exact hx
    · rename_i hdue
      rcases mem_cons.1 hx with rfl | hx
      · exact absurd (hlater i) hdue
      · exact ih hx (i + 1)

theorem Ordered.step [DecidableEq T] {a : Action T} (h : Ordered threads) (hs : step threads a = some l) :
    Ordered l ∧ Effect threads a l := by
  cases a with
  | finalize t deadline blocks =>
    obtain ⟨⟨ht, hd⟩, hs⟩ := Option.ite_none_right_eq_some.1 hs
    obtain ⟨hperm, hins⟩ := h.insert (x := (t, deadline)) hd
    obtain rfl := Option.some.inj hs
    cases blocks with
    | true => exact ⟨hins, hperm⟩
    | false =>
      refine ⟨hins.sublist filter_sublist, (hperm.filter _).trans ?_⟩
      rw [filter_cons_of_neg (by simp)]
      refine .of_eq (filter_eq_self.2 fun y hy => ?_)
      simpa using ne_of_mem_of_not_mem (mem_map_of_mem hy) ht
  | unblock t =>
    obtain rfl := Option.some.inj hs
    exact ⟨h.sublist filter_sublist, fun x => by simp [mem_filter]⟩
  | check now late =>
    obtain rfl := Option.some.inj hs
    have hsuffix := check_suffix now late threads 0
    exact ⟨h.sublist (hsuffix.sublist.trans (dropWhile_sublist _)), fun x hx => h.later now x (hsuffix.subset hx),
      fun x hx hlater => check_keeps hx hlater 0⟩

/-- Along every run the list is sorted, a thread that blocks is inserted once, and no
timeout is missed or comes too early. -/
theorem timeouts_in_order [DecidableEq T] (acts : List (Action T)) :
    Always step Ordered [] acts ∧
      Along step (fun threads a => ∀ l, step threads a = some l → Effect threads a l) [] acts := by
  have halways : Always step Ordered ([] : List (T × Nat)) acts :=
    always_of_step (fun _ _ _ h hs => (h.step hs).1) ⟨.nil, nofun⟩ acts
  exact ⟨halways, halways.along_self fun s a h hn => absurd (fun s' hs => (h.step hs).2) hn⟩

end Patchwork.Timeouts
