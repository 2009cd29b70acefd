import Catena.Ty

/-!
# Core words

The words that are built into the language. Each has a name and a signature: the types
it requires on top of the stack. The order of `Word.all` is the order in which the words
are listed.

* `Word.ofName?_name`: every core word is found under its name.
-/

namespace Catena

/-- A word that is built into the language. -/
inductive Word where
  /-- The sum of two numbers. -/
  | add
  /-- The product of two numbers. -/
  | mul
  /-- The top number divided by the one below it. -/
  | div
  /-- Whether the top number is greater than the one below it. -/
  | less
  /-- Write a string out. -/
  | print
  /-- Write the whole stack out. -/
  | printStack
  /-- Take the last value off a body. -/
  | takeBody
  /-- Put a value at the end of a body. -/
  | putBody
  /-- Take the last value off a pattern. -/
  | takePattern
  /-- Put a value at the end of a pattern. -/
  | putPattern
  /-- Join the bodies of two quotes. -/
  | join
  /-- Split a quote into its pattern and its body. -/
  | split
  /-- The text of a value. -/
  | render
  /-- Carry out the body of a quote, with its pattern bound to the stack. -/
  | call
  /-- Carry out the first of several quotes whose pattern fits. -/
  | select
  /-- The characters of a string. -/
  | chars
  /-- Join two strings. -/
  | weld
  /-- Bind a name to a quote. -/
  | define
  /-- The type of a value. -/
  | typeOf
  /-- Read a string as a program. -/
  | parse
  /-- Run a string as a program. -/
  | eval
  /-- Read a file. -/
  | load
  /-- Run a command of the host. -/
  | command
  /-- Write a file. -/
  | write
  /-- End the program. -/
  | exit
deriving DecidableEq, Repr

namespace Word

/-- All core words, in the order in which they are listed. -/
def all : List Word :=
  [.add, .mul, .div, .less, .print, .printStack, .takeBody, .putBody, .takePattern,
   .putPattern, .join, .split, .render, .call, .select, .chars, .weld, .define, .typeOf,
   .parse, .eval, .load, .command, .write, .exit]

/-- The name of a core word. -/
def name : Word → String
  | .add => "+"
  | .mul => "*"
  | .div => "/"
  | .less => "<"
  | .print => "print"
  | .printStack => "."
  | .takeBody => ">>"
  | .putBody => "<<"
  | .takePattern => "@>"
  | .putPattern => "<@"
  | .join => "@+"
  | .split => "@-"
  | .render => "show"
  | .call => "call"
  | .select => "match"
  | .chars => "chars"
  | .weld => "weld"
  | .define => "def"
  | .typeOf => "type"
  | .parse => "parse"
  | .eval => "eval"
  | .load => "load"
  | .command => "cmd"
  | .write => "write"
  | .exit => "exit"

/-- The types that a core word requires on top of the stack, the deepest first. -/
def signature : Word → Signature
  | .add | .mul | .div | .less => [.num, .num]
  | .printStack | .exit => []
  | .takeBody => [.quote .any .notEmpty]
  | .takePattern => [.quote .notEmpty .any]
  | .putBody | .putPattern => [.anyQuote, .any]
  | .join => [.anyQuote, .anyQuote]
  | .split | .call => [.anyQuote]
  | .render | .typeOf => [.any]
  | .select => [.quote .empty .anyQuote]
  | .print | .chars | .parse | .eval | .load | .command => [.str]
  | .weld | .write => [.str, .str]
  | .define => [.anyQuote, .sym]

/-- The core word of a name. -/
def ofName? (name : String) : Option Word :=
  all.find? (·.name == name)

theorem ofName?_name (w : Word) : ofName? w.name = some w := by
  cases w <;> decide

theorem name_of_ofName? {name : String} {w : Word} (h : ofName? name = some w) :
    w.name = name := by
  simpa using List.find?_some h

theorem ofName?_eq_some_iff {name : String} {w : Word} :
    ofName? name = some w ↔ name = w.name := by
  constructor
  · intro h
    exact (name_of_ofName? h).symm
  · rintro rfl
    exact ofName?_name w

theorem name_inj {w w' : Word} : w.name = w'.name ↔ w = w' := by
  rw [← ofName?_eq_some_iff, ofName?_name, Option.some.injEq]

/-- A core word's text for inspection. -/
def debugText (w : Word) : String :=
  "BuiltinOp \x7b id: \"" ++ w.name ++ "\", signature: " ++ Ty.listText w.signature ++ ", .. \x7d"

end Word

end Catena
