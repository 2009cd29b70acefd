import Catena.Machine.Run
import Mathlib.Order.Nat

/-!
# Nested machines

What a nested machine has from the machine around it, and what that one gets back: the
fields of the state in front of a nested run (`State.nested`), of the state behind it that
drops or keeps its changes (`State.rollback`, `State.commit`), and of the state in which the
outer run goes on (`Ending.withStatus`).

The count of items is the one field that depends on the depth. A machine at top level lends
nothing of its count and takes nothing back; below that, the count goes on in the nested run
and comes back with it.
-/

namespace Catena

variable {H : Type}

namespace State

variable {s inner : State H} {r : Ending H} {program : List Value} {limit : Nat}

/-! ### In front of a nested run -/

/-- A nested machine is not halted, whether or not the outer one is. -/
@[simp]
theorem nested_halted : (s.nested program).halted = false := rfl

@[simp]
theorem nested_host : (s.nested program).host = s.host := rfl

@[simp]
theorem nested_limits : (s.nested program).limits = s.limits := rfl

@[simp]
theorem nested_depth : (s.nested program).depth = s.depth + 1 := rfl

/-- A text that is run at top level starts with a fresh count. -/
theorem nested_steps_of_top (hd : s.depth = 0) : (s.nested program).steps = 0 :=
  if_pos hd

/-- Below top level a nested run goes on with the count. -/
theorem nested_steps (hd : 0 < s.depth) : (s.nested program).steps = s.steps :=
  if_neg hd.ne'

/-- A nested run never starts with more than the outer run has counted. -/
theorem nested_steps_le : (s.nested program).steps ≤ s.steps := by
  rcases Nat.eq_zero_or_pos s.depth with hd | hd
  · exact (nested_steps_of_top hd).trans_le (Nat.zero_le _)
  · exact (nested_steps hd).le

/-! ### Behind a nested run -/

@[simp]
theorem rollback_halted : (s.rollback inner).halted = s.halted := rfl

/-- To keep the changes of a nested run is to roll it back, and to take over the stack and the
    environment then. A nested run that was halted also ends the outer one. -/
theorem commit_eq :
    s.commit inner =
      { s.rollback inner with
        stack := inner.stack
        env := inner.env
        queue := if inner.halted then [] else s.queue
        halted := inner.halted || s.halted } := by
  unfold commit
  cases inner.halted <;> rfl

@[simp]
theorem commit_stack : (s.commit inner).stack = inner.stack := by
  rw [commit_eq]

@[simp]
theorem commit_env : (s.commit inner).env = inner.env := by
  rw [commit_eq]

/-- The outer machine goes on with its own queue. -/
theorem commit_queue (h : inner.halted = false) : (s.commit inner).queue = s.queue := by
  rw [commit_eq, h]
  rfl

/-- If the program has ended in the nested run, nothing is left to be done outside. -/
theorem commit_queue_of_halted (h : inner.halted = true) : (s.commit inner).queue = [] := by
  rw [commit_eq, h]
  rfl

@[simp]
theorem commit_host : (s.commit inner).host = inner.host := by
  rw [commit_eq]
  rfl

/-- The end of the program is handed on to the outer machine. -/
@[simp]
theorem commit_halted : (s.commit inner).halted = (inner.halted || s.halted) := by
  rw [commit_eq]

/-- A transaction does not touch the limits. -/
@[simp]
theorem settle_limits : (s.settle r).state.limits = s.limits := by
  cases r with
  | finished inner =>
    rw [settle, commit_eq]
    rfl
  | stopped e inner => rfl

/-- The machine behind a transaction is as deep as the one in front of it. -/
@[simp]
theorem settle_depth : (s.settle r).state.depth = s.depth := by
  cases r with
  | finished inner =>
    rw [settle, commit_eq]
    rfl
  | stopped e inner => rfl

/-- What a nested run has done to the host stays, also if the run is rolled back. -/
@[simp]
theorem settle_host : (s.settle r).state.host = r.state.host := by
  cases r with
  | finished inner => exact commit_host
  | stopped e inner => rfl

/-- A machine at top level takes back nothing of the count of a nested run. -/
theorem settle_steps_eq :
    (s.settle r).state.steps = if s.depth = 0 then s.steps else r.state.steps := by
  cases r with
  | finished inner =>
    rw [settle, commit_eq]
    rfl
  | stopped e inner => rfl

/-- Below top level the items of a nested run count for the outer one. -/
theorem settle_steps (hd : 0 < s.depth) : (s.settle r).state.steps = r.state.steps :=
  settle_steps_eq.trans (if_neg hd.ne')

/-- A bound on the count in front of a transaction and in the nested run holds behind it. -/
theorem settle_steps_le (hs : s.steps ≤ limit) (hr : r.state.steps ≤ limit) :
    (s.settle r).state.steps ≤ limit := by
  rw [settle_steps_eq]
  split
  · exact hs
  · exact hr

end State

/-! ### In front of the outer run -/

namespace Ending

variable {r : Ending H}

@[simp]
theorem withStatus_limits : r.withStatus.limits = r.state.limits := by
  cases r <;> rfl

@[simp]
theorem withStatus_depth : r.withStatus.depth = r.state.depth := by
  cases r <;> rfl

@[simp]
theorem withStatus_steps : r.withStatus.steps = r.state.steps := by
  cases r <;> rfl

@[simp]
theorem withStatus_host : r.withStatus.host = r.state.host := by
  cases r <;> rfl

/-- The symbol that tells how a run has ended does not end the program. -/
@[simp]
theorem withStatus_halted : r.withStatus.halted = r.state.halted := by
  cases r <;> rfl

end Ending

end Catena
