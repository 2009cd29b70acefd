import Catena.Machine.Action

/-!
# Runs

A run carries out the items of a machine's queue, one by one, until the queue is empty,
the program asks to end, or a fault stops it. A value that is no atom is pushed; a core
word is carried out if the stack satisfies its signature; a bound name puts its quote
and the word `call` in front of the queue, so that recursion makes the queue longer and
never nests runs.

Runs nest through `eval` alone. A text is run as a *transaction*: on a machine of its
own, one level deeper, with the stack and the environment of the first. If that run
succeeds, its stack and environment take the place of the old ones; if it fails, only
what it did to the host remains. Runs nested in a run share its count of items, and what
a failed one carried out counts too. A text that is run at top level starts a count of
its own.

A run need not end, so it is given fuel: each item takes one unit, and the nested run it
starts has what is left. A run without an answer has run out of fuel, which is no fault
of the program.
-/

namespace Catena

/-- How a run ends. -/
inductive Ending (H : Type) where
  /-- The queue is empty, or the program has asked to end. -/
  | finished (s : State H)
  /-- A fault has stopped the run. -/
  | stopped (fault : Fault) (s : State H)

namespace Ending

variable {H : Type}

/-- The state at the end of a run. -/
def state : Ending H → State H
  | finished s => s
  | stopped _ s => s

/-- The fault that has stopped a run, if one has. -/
def fault? : Ending H → Option Fault
  | finished _ => none
  | stopped e _ => some e

/-- The state with the symbol on its stack that tells whether a run succeeded. -/
def withStatus : Ending H → State H
  | finished s => { s with stack := Value.ok :: s.stack }
  | stopped _ s => { s with stack := Value.notOk :: s.stack }

end Ending

namespace State

variable {H : Type}

/-- Fail unless the stack satisfies the signature of a word. -/
def require (w : Word) : Action H Unit := fun s =>
  if w.signature.admits s.stack then .ok () s
  else .error (.mismatch w w.signature (topTypes w.signature.length s.stack)) s

/-- Carry out one item, which has been taken off the queue. -/
def dispatch [Host H] : Value → Action H Demand
  | .atom name => fun s =>
    match Word.ofName? name with
    | some w => (do require w; w.action) s
    | none =>
      match s.env.get? name with
      | some q =>
        .ok .proceed { s with queue := q.toValue :: .atom Word.call.name :: s.queue }
      | none => .error (.unknownWord name) s
  | v => Action.push v

/-- The machine that runs a program on behalf of another: one level deeper, with the
    same stack and environment. At top level it starts a count of its own. -/
def nested (s : State H) (program : List Value) : State H :=
  { s with
    queue := program
    halted := false
    depth := s.depth + 1
    steps := if s.depth = 0 then 0 else s.steps }

/-- The state after a nested run whose changes are dropped. -/
def rollback (s inner : State H) : State H :=
  { s with
    host := inner.host
    steps := if s.depth = 0 then s.steps else inner.steps }

/-- The state after a nested run whose changes are kept. If the program has asked to end
    there, it ends here too. -/
def commit (s inner : State H) : State H :=
  let s := { s.rollback inner with stack := inner.stack, env := inner.env }
  if inner.halted then { s with toMachine := s.toMachine.halt } else s

/-- The program of a text that is to run on a machine of its own, one level deeper. The
    depth is looked at before the text. -/
def programOf (source : String) (s : State H) : Except Fault (List Value) :=
  if s.limits.depth ≤ s.depth then .error (.depthLimit s.limits.depth)
  else (Parser.parse Parser.defaultDepth source).mapError .parse

/-- How a transaction ends whose run has ended. -/
def settle (s : State H) : Ending H → Ending H
  | .finished inner => .finished (s.commit inner)
  | .stopped e inner => .stopped e (s.rollback inner)

/-- Run a text as a transaction, given how its program is run. -/
def evaluateWith (run : State H → Option (Ending H)) (source : String) (s : State H) :
    Option (Ending H) :=
  match s.programOf source with
  | .error e => some (.stopped e s)
  | .ok program => (run (s.nested program)).map s.settle

/-- What becomes of an action, given how programs are run: its demand is met. A text that
    is run for it does not stop the machine, whether it succeeds or fails. -/
def conclude (run : State H → Option (Ending H)) :
    EStateM.Result Fault (State H) Demand → Option (Ending H)
  | .error e s => some (.stopped e s)
  | .ok .proceed s => some (.finished s)
  | .ok (.evaluate source) s =>
    (evaluateWith run source s).map fun ending => .finished ending.withStatus

/-- What a machine does next. -/
inductive Turn (H : Type) where
  /-- Nothing: the queue is empty, or the program has asked to end. -/
  | idle
  /-- It stops in front of an item that it may not carry out any more. -/
  | stop (fault : Fault) (s : State H)
  /-- It carries out an item. -/
  | item (item : Value) (s : State H)

/-- What a machine does next. An item is off the queue, and counted, before it is carried
    out; it is off the queue also if it may not be carried out. -/
def turn (s : State H) : Turn H :=
  if s.halted then .idle
  else
    match s.queue with
    | [] => .idle
    | item :: rest =>
      match s.reachedLimit? with
      | some limit => .stop (.stepLimit limit) { s with queue := rest }
      | none => .item item { s with queue := rest, steps := s.steps + 1 }

/-- Carry out the items of the queue, with the count of items as it is. -/
def proceed [Host H] : (fuel : Nat) → State H → Option (Ending H)
  | 0, _ => none
  | fuel + 1, s =>
    match s.turn with
    | .idle => some (.finished s)
    | .stop e s => some (.stopped e s)
    | .item item s =>
      match conclude (proceed fuel) (dispatch item s) with
      | none => none
      | some (.stopped e s) => some (.stopped e s)
      | some (.finished s) => proceed fuel s

/-- The machine with a new count of items, if it is at top level. -/
def recount (s : State H) : State H :=
  if s.depth = 0 then { s with steps := 0 } else s

/-- Run the queue of a machine. A machine at top level starts a new count of items. -/
def run [Host H] (fuel : Nat) (s : State H) : Option (Ending H) :=
  proceed fuel s.recount

/-- Run a text as a program: either it succeeds as a whole, or the machine stays as it
    is. -/
def evaluate [Host H] (fuel : Nat) (source : String) (s : State H) : Option (Ending H) :=
  evaluateWith (proceed fuel) source s

/-- Carry out a core word without a look at its signature. -/
def apply [Host H] (fuel : Nat) (w : Word) (s : State H) : Option (Ending H) :=
  conclude (proceed fuel) (w.action s)

/-- Carry out one item, with the program that it may run. -/
def carryOut [Host H] (fuel : Nat) (item : Value) (s : State H) : Option (Ending H) :=
  conclude (proceed fuel) (dispatch item s)

end State

/-- Run a program on a new machine. -/
def runProgram {H : Type} [Host H] (fuel : Nat) (source : String) (host : H) :
    Option (Ending H) :=
  State.evaluate fuel source { host := host }

end Catena
