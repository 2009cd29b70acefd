import Catena.Machine.Run
import Catena.Text.Blank

/-!
# Interactive sessions

A session feeds lines to one machine. A line is a program, or one of a few requests
that begin with an asterisk. After a program that succeeds, and after every request but
the one to quit, the stack is shown. A program that fails shows its fault only, and
leaves the machine as it was.
-/

namespace Catena.Session

/-- What a line asks for. -/
inductive Request where
  | quit
  | help
  /-- Show all bound names with their quotes. -/
  | definitions
  /-- Show the quote of one name. -/
  | definition (name : String)
  /-- Run a program. -/
  | program (source : String)
deriving DecidableEq, Repr

/-- What a line asks for: all lines that are no other request are programs. -/
def Request.ofLine (line : String) : Request :=
  match line.toList with
  | ['*', 'q'] => .quit
  | ['*', 'h'] => .help
  | ['*', 'f'] => .definitions
  | '*' :: 'f' :: ' ' :: name => .definition (String.ofList (Text.trim name))
  | _ => .program line

/-- The help text. -/
def helpText : String :=
  "\n".intercalate [
    "Quark REPL:",
    "  *h         - Show this help message",
    "  *f         - List all user definitions",
    "  *f NAME    - Show one definition",
    "  *q         - Exit the interpreter",
    "",
    "Values:",
    "  Numbers: 42, -1.5        Symbols: :ok, :nil",
    "  Strings: \"text\", 'text'  Quotes: [ x y | y x ]",
    "",
    "Examples:",
    "  1 2 +",
    "  [x | x x] :dup def  5 dup",
    "  7 [ [0 | \"zero\"] [n | \"nonzero\"] ] match",
    "",
    "A line that fails leaves the stack and definitions unchanged.",
    ""]

/-- The names that are bound, in ascending order, each with its quote. -/
def definitionsText (env : Environment) : String :=
  if env.isEmpty then "No definitions.\n"
  else
    String.join (env.entries.map fun (name, q) =>
      name ++ "\n    " ++ q.toValue.text ++ "\n\n")

/-- The quote of a name. -/
def definitionText (env : Environment) (name : String) : String :=
  match env.get? name with
  | some q => q.toValue.text ++ "\n"
  | none => "No such function: " ++ name ++ "\n"

/-- A stack as it is shown, the deepest value first. -/
def stackText (m : Machine) : String :=
  Value.sequenceText m.stack.reverse ++ "\n"

/-- What a line shows, or `none` if it asks to quit, and the state after it. -/
def answer {H : Type} [Host H] (fuel : Nat) (line : String) (s : State H) :
    Option (Option String × State H) :=
  match Request.ofLine line with
  | .quit => some (none, s)
  | .help => some (some (helpText ++ stackText s.toMachine), s)
  | .definitions => some (some (definitionsText s.env ++ stackText s.toMachine), s)
  | .definition name => some (some (definitionText s.env name ++ stackText s.toMachine), s)
  | .program source =>
    match s.evaluate fuel source with
    | none => none
    | some (.finished s) => some (some (stackText s.toMachine), s)
    | some (.stopped e s) => some (some (e.text ++ "\n"), s)

end Catena.Session
