import Catena.Dictionary
import Catena.Value

/-!
# Machines

A machine has a stack, a queue of values to carry out and an environment of bound names.
The stack is kept with its top in front, the queue with the next item in front. A
machine that runs on behalf of the word `eval` is *nested*: its `depth` is the number of
runs around it, and zero for a machine at top level.

The `State` of a run is a machine together with its host.
-/

namespace Catena

/-- The names that a program has bound, with their quotes. -/
abbrev Environment := Dictionary Quote

/-- How far runs may go. -/
structure Limits where
  /-- How many items one run at top level may carry out, if there is a limit. -/
  steps : Option Nat := none
  /-- How many runs may be nested in one another. -/
  depth : Nat := 64
deriving DecidableEq, Repr

/-- A machine: a stack, a queue and an environment. -/
structure Machine where
  /-- The values that words work on, the top in front. -/
  stack : List Value := []
  /-- The values to carry out, the next in front. -/
  queue : List Value := []
  env : Environment := .empty
  limits : Limits := {}
  /-- Whether the program has asked to end; nothing is carried out after that. -/
  halted : Bool := false
  /-- How many runs this one is nested in. -/
  depth : Nat := 0
  /-- How many items have been carried out. -/
  steps : Nat := 0

/-- A machine with its host. -/
structure State (H : Type) extends Machine where
  host : H

namespace Machine

/-- The machine that has stopped for good: its queue is dropped. -/
def halt (m : Machine) : Machine :=
  { m with halted := true, queue := [] }

/-- The machine with values put in front of its queue, in their order. -/
def prepend (m : Machine) (items : List Value) : Machine :=
  { m with queue := items ++ m.queue }

/-- The limit on the number of items, if it is reached. -/
def reachedLimit? (m : Machine) : Option Nat :=
  m.limits.steps.filter (· ≤ m.steps)

end Machine

end Catena
