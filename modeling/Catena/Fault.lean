import Catena.Parser.Error
import Catena.Value.Printer
import Catena.Word

/-!
# Faults

A fault is the cause that ends a run. Only four causes arise in a run whose words are
checked against their signatures: a word whose signature does not fit, a name without
meaning, a program that does not parse, and a limit that is reached. The others are met
when a word is carried out without that check.
-/

namespace Catena

/-- What a word expects to find on the stack. -/
inductive Expectation where
  | number
  | string
  | symbol
  | quote
deriving DecidableEq, Repr

/-- A cause that ends a run. -/
inductive Fault where
  /-- A text is no program. -/
  | parse (error : ParseError)
  /-- The top of the stack does not satisfy the signature of a word. -/
  | mismatch (word : Word) (expected actual : List Ty)
  /-- A name is neither a core word nor bound. -/
  | unknownWord (name : String)
  /-- The run has carried out as many items as it may. -/
  | stepLimit (limit : Nat)
  /-- Runs are nested as deeply as they may be. -/
  | depthLimit (limit : Nat)
  /-- A word finds too little on the stack, or an empty half of a quote. -/
  | underflow (word : Word)
  /-- A word finds a value of another kind. -/
  | unexpected (word : Word) (expected : Expectation) (found : Value)
  /-- A word finds no quote to change on top of the stack. -/
  | noQuote (word : Word)

/-- What is expected, in words. -/
def Expectation.text : Expectation → String
  | .number => "a number"
  | .string => "a string"
  | .symbol => "a symbol"
  | .quote => "a quote"

/-- The whole text of a fault. -/
def Fault.text : Fault → String
  | .parse e => e.text
  | .mismatch w expected actual =>
    "Type error with function " ++ w.name ++
      "\n  expected a stack of " ++ Ty.listText expected ++
      "\n  but got " ++ Ty.listText actual
  | .unknownWord name => "No such function: " ++ name
  | .stepLimit limit => s!"EvaluationError: Step limit exceeded (max: {limit})"
  | .depthLimit limit => s!"EvaluationError: Evaluation depth limit exceeded (max: {limit})"
  | .underflow w => "EvaluationError: stack underflow in " ++ w.name
  | .unexpected w expected found =>
    "EvaluationError: " ++ w.name ++ ": expected " ++ expected.text ++ ", found " ++ found.text
  | .noQuote w => "EvaluationError: " ++ w.name ++ ": expected a quote on the stack"

end Catena
