import Catena.Fault
import Catena.Host
import Catena.Machine
import Catena.Parser
import Catena.Pattern

/-!
# Actions of the core words

What a core word does to a machine and its host, given that it is carried out. An action
takes its values off the stack one by one, the top first, and ends with a *demand*: most
often to proceed with the next item, and for the word `eval` to run a text as a program
first. If it fails it leaves the stack as it is at that point.

The words `call` and `select` put the body that they have bound in front of the queue.
`call` takes as many arguments off the stack as its pattern has elements, also if they
do not fit, and then answers `:nil`; `select` takes none unless a clause fits.
-/

namespace Catena

/-- What a machine is to do after an action. -/
inductive Demand where
  /-- Carry out the next item. -/
  | proceed
  /-- Run a text as a program, and push whether it succeeded. -/
  | evaluate (source : String)

/-- A change of a machine and its host that may fail. -/
abbrev Action (H α : Type) := EStateM Fault (State H) α

namespace Action

variable {H : Type}

/-- Take the top off the stack, for a word. -/
def pop (w : Word) : Action H Value := fun s =>
  match s.stack with
  | [] => .error (.underflow w) s
  | v :: rest => .ok v { s with stack := rest }

/-- Take a number off the stack. -/
def popNumber (w : Word) : Action H Float := do
  match ← pop w with
  | .num x => pure x
  | v => throw (.unexpected w .number v)

/-- Take a string off the stack. -/
def popString (w : Word) : Action H String := do
  match ← pop w with
  | .str t => pure t
  | v => throw (.unexpected w .string v)

/-- Take the name of a symbol off the stack. -/
def popSymbol (w : Word) : Action H String := do
  match ← pop w with
  | .sym n => pure n
  | v => throw (.unexpected w .symbol v)

/-- Take a quote off the stack. -/
def popQuote (w : Word) : Action H Quote := do
  match ← pop w with
  | .quote pattern body => pure ⟨pattern, body⟩
  | v => throw (.unexpected w .quote v)

/-- The quote on top of the stack, which stays there. -/
def topQuote (w : Word) : Action H Quote := fun s =>
  match s.stack with
  | [] => .error (.underflow w) s
  | .quote pattern body :: _ => .ok ⟨pattern, body⟩ s
  | _ :: _ => .error (.noQuote w) s

/-- Change the state, and proceed. -/
def update (f : State H → State H) : Action H Demand := fun s => .ok .proceed (f s)

/-- Push a value, and proceed. -/
def push (v : Value) : Action H Demand :=
  update fun s => { s with stack := v :: s.stack }

/-- Put a quote in the place of the top of the stack, and proceed. -/
def replaceTop (q : Quote) : Action H Demand :=
  update fun s => { s with stack := q.toValue :: s.stack.drop 1 }

/-- Take the last value off one half of the quote on top of the stack, and push it. -/
def takeLast (w : Word) (last? : Quote → Option (Value × Quote)) : Action H Demand := do
  let q ← topQuote w
  match last? q with
  | none => throw (.underflow w)
  | some (v, q) =>
    update fun s => { s with stack := v :: q.toValue :: s.stack.drop 1 }

/-- Ask the host for a text: push it and `:ok`, or only `:not-ok`. -/
def request (ask : H → Except HostError String × H) : Action H Demand :=
  update fun s =>
    match ask s.host with
    | (.ok t, host) => { s with stack := Value.ok :: .str t :: s.stack, host := host }
    | (.error _, host) => { s with stack := Value.notOk :: s.stack, host := host }

/-- Ask the host to save a text as a file: push `:ok` or `:not-ok`. -/
def save [Host H] (path text : String) : Action H Demand :=
  update fun s =>
    match Host.save path text s.host with
    | (.ok (), host) => { s with stack := Value.ok :: s.stack, host := host }
    | (.error _, host) => { s with stack := Value.notOk :: s.stack, host := host }

/-- Push the text read as a program and `:ok`, or only `:not-ok`. -/
def pushParsed (source : String) : Action H Demand :=
  update fun s =>
    match Parser.parse Parser.defaultDepth source with
    | .ok items => { s with stack := Value.ok :: Value.ofBody items :: s.stack }
    | .error _ => { s with stack := Value.notOk :: s.stack }

/-- The body of a quote bound to the top of a stack, and the stack below it, if the
    pattern fits. -/
def applyTo (stack : List Value) (q : Quote) : Option (List Value × List Value) :=
  (Pattern.match? q.pattern (stack.take q.pattern.length).reverse).map fun bindings =>
    ((q.bind bindings).body, stack.drop q.pattern.length)

/-- Carry out a quote on the stack. -/
def callQuote (q : Quote) : Action H Demand :=
  update fun s =>
    match applyTo s.stack q with
    | some (body, rest) => { s with toMachine := { s.toMachine with stack := rest }.prepend body }
    | none => { s with stack := Value.nil :: s.stack.drop q.pattern.length }

/-- The body of the first of some clauses that fits a stack, and the stack below it. -/
def firstClause (stack clauses : List Value) : Option (List Value × List Value) :=
  clauses.findSome? fun
    | .quote pattern body => applyTo stack ⟨pattern, body⟩
    | _ => none

/-- Carry out the first clause that fits the stack, if one does. -/
def selectClause (clauses : List Value) : Action H Demand :=
  update fun s =>
    match firstClause s.stack clauses with
    | some (body, rest) => { s with toMachine := { s.toMachine with stack := rest }.prepend body }
    | none => s

end Action

open Catena.Action in
/-- What a core word does. -/
def Word.action {H : Type} [Host H] : Word → Action H Demand
  | .add => do
    let x₂ ← popNumber .add
    let x₁ ← popNumber .add
    push (.num (x₁ + x₂))
  | .mul => do
    let x₂ ← popNumber .mul
    let x₁ ← popNumber .mul
    push (.num (x₁ * x₂))
  | .div => do
    let x₂ ← popNumber .div
    let x₁ ← popNumber .div
    push (.num (x₂ / x₁))
  | .less => do
    let x₂ ← popNumber .less
    let x₁ ← popNumber .less
    push (.truth (x₁ < x₂))
  | .print => do
    let t ← popString .print
    update fun s => { s with host := Host.print t s.host }
  | .printStack =>
    update fun s =>
      { s with host := Host.print (Value.sequenceText s.stack.reverse ++ "\n") s.host }
  | .takeBody => takeLast .takeBody Quote.pop?
  | .putBody => do
    let v ← pop .putBody
    let q ← topQuote .putBody
    replaceTop (q.push v)
  | .takePattern => takeLast .takePattern Quote.popPattern?
  | .putPattern => do
    let v ← pop .putPattern
    let q ← topQuote .putPattern
    replaceTop (q.pushPattern v)
  | .join => do
    let top ← popQuote .join
    let below ← popQuote .join
    push (.ofBody (below.body ++ top.body))
  | .split => do
    let q ← popQuote .split
    update fun s => { s with stack := .ofBody q.body :: .ofBody q.pattern :: s.stack }
  | .render => do
    let v ← pop .render
    push (.str v.text)
  | .call => do
    let q ← popQuote .call
    callQuote q
  | .select => do
    let q ← popQuote .select
    selectClause q.body
  | .chars => do
    let t ← popString .chars
    push (.ofBody (t.toList.map fun c => .str (String.ofList [c])))
  | .weld => do
    let t₂ ← popString .weld
    let t₁ ← popString .weld
    push (.str (t₁ ++ t₂))
  | .define => do
    let name ← popSymbol .define
    let q ← popQuote .define
    update fun s => { s with env := s.env.insert name q }
  | .typeOf => do
    let v ← pop .typeOf
    push v.ty.toValue
  | .parse => do
    let source ← popString .parse
    pushParsed source
  | .eval => do
    let source ← popString .eval
    return .evaluate source
  | .load => do
    let path ← popString .load
    request (Host.load path)
  | .command => do
    let command ← popString .command
    request (Host.command command)
  | .write => do
    let path ← popString .write
    let text ← popString .write
    save path text
  | .exit => update fun s => { s with toMachine := s.toMachine.halt, host := Host.exit s.host }

end Catena
