import Patchwork.Lib.RedBlack
import Patchwork.Sched.Eevdf
/-!
# Choosing the next thread

`sched_first_eligible` looks for the first thread in deadline order that is
eligible. It descends the runqueue's tree and skips a left subtree whose cached
`vminEligible` is not eligible. `sched_node_update` takes that minimum with
`sched_fixed_cmp`, which treats times within an epsilon as equal, so the cached
value may lie above the smallest eligible time of the subtree, and the descent
may skip a subtree in which a thread is eligible. It returns what a scan in
order returns exactly when no left subtree on the way is skipped so
(`NotPruned`).
-/

namespace Patchwork.Sched

open List Lib.RedBlack CTree

variable (client : Nat → sched_client_t)

/-! ## The tree -/

/-- One round of the loop of `sched_node_update`, over one child. -/
def sched_node_update_child (minEligible : Int) : Option Nat → Int
  | none => minEligible
  | some child =>
    if sched_fixed_cmp (client child).vminEligible minEligible < 0 then (client child).vminEligible else minEligible

/-- The value `sched_node_update` gives `vminEligible` of thread `t`. -/
def sched_node_update (t : Nat) (left right : Option Nat) : Int :=
  sched_node_update_child client (sched_node_update_child client (client t).veligible left) right

/-- Every `vminEligible` is what `sched_node_update` computes, bottom up. -/
def MinUpdated : CTree Nat → Prop
  | .nil => True
  | .node _ l t r =>
    (client t).vminEligible = sched_node_update client t (root l) (root r) ∧ MinUpdated l ∧ MinUpdated r

/-- A runqueue: a tree of threads in the order of `sched_node_compare`, with
the minima updated. -/
structure Runqueue where
  client : Nat → sched_client_t
  tree : CTree Nat
  ordered : (inorder tree).Pairwise fun a b => sched_node_compare client a b < 0
  updated : MinUpdated client tree

/-! ## The descent -/

variable (vtime : Int)

/-- The thread is eligible to run, as `sched_first_eligible` tests it. -/
def eligible (t : Nat) : Bool := sched_fixed_cmp (client t).veligible vtime ≤ 0

/-- The test before the descent into a left subtree. -/
def minIsEligible : Option Nat → Bool
  | none => false
  | some left => sched_fixed_cmp (client left).vminEligible vtime ≤ 0

/-- The loop of `sched_first_eligible`; `none` when it runs off the tree. -/
def sched_first_eligible : CTree Nat → Option Nat
  | .nil => none
  | .node _ l t r =>
    if minIsEligible client vtime (root l) then sched_first_eligible l
    else if eligible client vtime t then some t
    else sched_first_eligible r

/-- The first eligible thread in order. -/
def scan (tree : CTree Nat) : Option Nat := (inorder tree).find? (eligible client vtime)

/-- No left subtree that the search for the first eligible thread enters is
skipped by the descent. -/
def NotPruned : CTree Nat → Prop
  | .nil => True
  | .node _ l t r =>
    if scan client vtime l ≠ none then minIsEligible client vtime (root l) = true ∧ NotPruned l
    else if eligible client vtime t then True
    else NotPruned r

/-! ## What the cached minimum is -/

variable {client vtime} {tree : CTree Nat}

theorem node_update_child_cases (client : Nat → sched_client_t) (m : Int) (c : Option Nat) :
    sched_node_update_child client m c = m ∨ ∃ t ∈ c, sched_node_update_child client m c = (client t).vminEligible := by
  cases c with
  | none => exact .inl rfl
  | some t =>
    simp only [sched_node_update_child]
    split
    · exact .inr ⟨t, rfl, rfl⟩
    · exact .inl rfl

/-- The cached minimum is the eligible time of a thread of the subtree. -/
theorem minEligible_mem {t : Nat} (h : MinUpdated client tree) (ht : t ∈ root tree) :
    ∃ u ∈ inorder tree, (client t).vminEligible = (client u).veligible := by
  induction tree generalizing t with
  | nil => cases ht
  | node c l a r ihl ihr =>
    cases ht
    obtain ⟨hm, hl, hr⟩ := h
    rw [hm]
    unfold sched_node_update
    rcases node_update_child_cases client (sched_node_update_child client (client a).veligible (root l))
      (root r) with e | ⟨b, hc, e⟩
    · rw [e]
      rcases node_update_child_cases client (client a).veligible (root l) with e | ⟨c, hc, e⟩
      · exact ⟨a, mem_inorder_node.2 (.inr (.inl rfl)), e⟩
      · obtain ⟨u, hu, he⟩ := ihl hl hc
        exact ⟨u, mem_inorder_node.2 (.inl hu), e.trans he⟩
    · obtain ⟨u, hu, he⟩ := ihr hr hc
      exact ⟨u, mem_inorder_node.2 (.inr (.inr hu)), e.trans he⟩

theorem scan_ne_none_of_minIsEligible (h : MinUpdated client tree)
    (hm : minIsEligible client vtime (root tree) = true) : scan client vtime tree ≠ none := by
  cases tree with
  | nil => cases hm
  | node c l t r =>
    obtain ⟨u, hu, he⟩ := minEligible_mem h (show t ∈ root (.node c l t r) from rfl)
    rw [scan, Ne, find?_eq_none]
    intro hn
    refine hn u hu ?_
    rw [eligible, ← he]
    exact hm

theorem scan_node (c : Color) (l : CTree Nat) (t : Nat) (r : CTree Nat) :
    scan client vtime (.node c l t r) =
      (scan client vtime l).or (if eligible client vtime t then some t else scan client vtime r) := by
  unfold scan
  rw [inorder, find?_append]
  congr 1
  rw [find?_cons]
  cases eligible client vtime t <;> rfl

/-- What the descent returns is an eligible thread of the tree. -/
theorem first_eligible_mem {t : Nat} (h : sched_first_eligible client vtime tree = some t) :
    t ∈ inorder tree ∧ eligible client vtime t = true := by
  induction tree with
  | nil => cases h
  | node c l a r ihl ihr =>
    simp only [sched_first_eligible] at h
    split at h
    · exact ⟨mem_inorder_node.2 (.inl (ihl h).1), (ihl h).2⟩
    · split at h
      · rename_i he
        cases h
        exact ⟨mem_inorder_node.2 (.inr (.inl rfl)), he⟩
      · exact ⟨mem_inorder_node.2 (.inr (.inr (ihr h).1)), (ihr h).2⟩

theorem compare_self (t : Nat) : sched_node_compare client t t = 0 := by
  simp [sched_node_compare]

theorem nodup_of_ordered {l : List Nat} (h : l.Pairwise fun a b => sched_node_compare client a b < 0) : l.Nodup := by
  refine h.imp fun hab heq => ?_
  rw [heq, compare_self] at hab
  omega

theorem first_eligible_eq_scan (hn : (inorder tree).Nodup) (h : MinUpdated client tree) :
    sched_first_eligible client vtime tree = scan client vtime tree ↔ NotPruned client vtime tree := by
  induction tree with
  | nil => exact iff_of_true rfl trivial
  | node c l t r ihl ihr =>
    obtain ⟨-, hl, hr⟩ := h
    obtain ⟨hnl, hnt, hdis⟩ := nodup_append.1 hn
    have hnr := (nodup_cons.1 hnt).2
    rw [scan_node]
    simp only [sched_first_eligible, NotPruned]
    by_cases hs : scan client vtime l = none
    · -- Nothing in the left subtree is eligible, and the descent does not enter it.
      have hm : minIsEligible client vtime (root l) = false := by
        by_contra hm
        exact scan_ne_none_of_minIsEligible hl (by simpa using hm) hs
      rw [hm, hs]
      by_cases he : eligible client vtime t = true
      · simp [he]
      · simpa [he] using ihr hnr hr
    · obtain ⟨u, hu⟩ := Option.ne_none_iff_exists'.1 hs
      rw [hu, Option.some_or, if_pos (Option.some_ne_none u)]
      cases hm : minIsEligible client vtime (root l) with
      | true => simpa [hu] using ihl hnl hl
      | false =>
        -- The left subtree is skipped: what is returned lies outside it.
        refine iff_of_false (fun heq => ?_) (by simp)
        rw [if_neg Bool.false_ne_true] at heq
        have hul : u ∈ inorder l := mem_of_find?_eq_some hu
        have hur : u ∈ t :: inorder r := by
          split at heq
          · rw [Option.some.inj heq]
            exact mem_cons_self
          · exact mem_cons_of_mem _ (first_eligible_mem heq).1
        exact hdis u hul u hur rfl

/-- The descent returns the thread that a scan in order returns, exactly if no
left subtree on the way to that thread is skipped. -/
theorem first_eligible_eq_scan_iff_not_pruned (q : Runqueue) (vtime : Int) :
    sched_first_eligible q.client vtime q.tree = (inorder q.tree).find? (eligible q.client vtime) ↔
      NotPruned q.client vtime q.tree :=
  first_eligible_eq_scan (nodup_of_ordered q.ordered) q.updated

/-- The contexts of five threads: threads 1 and 2 become eligible at 100 and
111, the others much later. The minimum of thread 2 over thread 1 and itself is
111, for the two differ by no more than the epsilon. -/
def prunedClient (t : Nat) : sched_client_t :=
  let ve : Int := (if t = 1 then 100 else if t = 2 then 111 else 1000) * 2 ^ 63
  { weight := 1, vdeadline := t * 2 ^ 63, veligible := ve
    vminEligible := if t = 4 then 111 * 2 ^ 63 else ve }

/-- Thread 4 at the root, thread 2 with children 1 and 3 on its left, thread 5
on its right. -/
def prunedQueue : Runqueue where
  client := prunedClient
  tree := .node .black (.node .red (.node .black .nil 1 .nil) 2 (.node .black .nil 3 .nil)) 4 (.node .black .nil 5 .nil)
  ordered := by decide +kernel
  updated := by simp only [MinUpdated]; decide +kernel

/-- At virtual time 90 thread 1 is eligible, and the descent finds nothing. -/
theorem eligible_thread_skipped :
    sched_first_eligible prunedQueue.client (90 * 2 ^ 63) prunedQueue.tree = none ∧
      (inorder prunedQueue.tree).find? (eligible prunedQueue.client (90 * 2 ^ 63)) = some 1 := by
  decide +kernel

end Patchwork.Sched
