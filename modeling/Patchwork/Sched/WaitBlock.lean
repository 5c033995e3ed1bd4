import Mathlib
/-!
# Waiting under a lock

The macros `WAIT_BLOCK_LOCK` and `WAIT_BLOCK_LOCK_TIMEOUT` of `wait.h`, as the
thread that evaluates them sees them. Both are loops that release the lock once
in every turn, to block. What is modelled is the part from the test of the loop
to the next `lock_release`: it runs while the lock is held, and either ends the
macro with a result or blocks the thread. The clock, the result of
`wait_block_prepare` and that of `wait_block_commit` are given from outside.
-/

namespace Patchwork.Wait

def CLOCKS_NEVER : Nat := 2 ^ 64 - 1

def CLOCKS_REMAINING (deadline uptime : Nat) : Nat :=
  if deadline = CLOCKS_NEVER then CLOCKS_NEVER else if deadline > uptime then deadline - uptime else 0

def CLOCKS_DEADLINE (timeout uptime : Nat) : Nat :=
  if timeout = CLOCKS_NEVER then CLOCKS_NEVER
  else if timeout > CLOCKS_NEVER - uptime then CLOCKS_NEVER
  else uptime + timeout

/-- What the functions of the waiting subsystem return: `0` or `ERR`. -/
inductive result_t where
  | zero
  | ERR
deriving Repr, DecidableEq

/-- How a waiting macro comes to its next `lock_release`, or to its end. -/
inductive Turn where
  | done (result : result_t)
  | block
deriving Repr, DecidableEq

/-- `prepare` is the result of `wait_block_prepare`, if it is called. -/
def WAIT_BLOCK_LOCK (condition : Bool) (result prepare : result_t) : Turn :=
  if !condition && result == .zero then
    match prepare with
    | .ERR => .done .ERR
    | .zero => .block
  else .done result

/-- `prepare` is the result of `wait_block_prepare` as a function of its timeout. -/
def WAIT_BLOCK_LOCK_TIMEOUT (condition : Bool) (result : result_t) (deadline uptime : Nat)
    (prepare : Nat → result_t) : Turn :=
  -- The loop goes on while the result is an error, not while it is none.
  if !condition && result == .ERR then
    if deadline ≤ uptime then .done .ERR
    else
      match prepare (CLOCKS_REMAINING deadline uptime) with
      | .ERR => .done .ERR
      | .zero => .block
  else .done result

/-- The macro that waits without a timeout ends without an error only when the
condition holds. -/
theorem condition_of_done {condition : Bool} {result prepare : result_t}
    (h : WAIT_BLOCK_LOCK condition result prepare = .done .zero) : condition = true := by
  cases condition with
  | true => rfl
  | false => cases result <;> cases prepare <;> cases h

/-- The macro that waits with a timeout never waits when it starts: it ends
without an error whether the condition holds or not. -/
theorem timeout_done (condition : Bool) (deadline uptime : Nat) (prepare : Nat → result_t) :
    WAIT_BLOCK_LOCK_TIMEOUT condition .zero deadline uptime prepare = .done .zero :=
  if_neg (by simp)

end Patchwork.Wait
