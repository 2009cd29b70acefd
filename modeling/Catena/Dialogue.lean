import Catena.Session
import Catena.Shell

/-!
# Dialogues

The program greets its user and answers line after line until the input ends, a line
asks to quit, or a program ends the process. A prompt stands in front of every line that
is read. A script that is given is run first, before the greeting; what it has bound
stays. A script that cannot be read ends the process with a message.

The commands of programs are carried out by any interpreter, which is the shell if no other
is given.
-/

namespace Catena.Dialogue

/-- What is written when a session begins. -/
def greeting : String :=
  "Quark - concatenative, self-modifying, pattern matching\n" ++
    "Type *h for help, *q or Ctrl+D to exit.\n\n"

/-- What is written in front of every line that is read. -/
def prompt : String := ":> "

/-- What a process leaves behind. -/
structure Result where
  stdout : String
  stderr : String := ""
  status : Nat := 0
  files : Files

/-- The lines of an input: the text after the last line feed is a line if it is not
    empty. -/
def linesOf (input : String) : List String :=
  let parts := input.splitOn "\n"
  if parts.getLast? = some "" then parts.dropLast else parts

/-- A state whose host has written a text. -/
def say {H : Type} [Host H] (text : String) (s : State H) : State H :=
  { s with host := Host.print text s.host }

/-- Whether the process is over. -/
def isOver (s : State Terminal) : Bool := s.host.exited || s.halted

/-- What a process leaves behind that ends in a state. -/
def result (s : State Terminal) : Result :=
  { stdout := s.host.output, files := s.host.files }

variable [Interpreter]

/-- Answer one line, which loses the white space at its ends and is skipped if nothing
    is left: whether to go on, and the state after it. -/
def step (fuel : Nat) (line : String) (s : State Terminal) : Option (Bool × State Terminal) :=
  let line := String.ofList (Text.trim line.toList)
  if line = "" then some (true, s)
  else
    match Session.answer fuel line s with
    | none => none
    | some (none, s) => some (false, s)
    | some (some shown, s) =>
      if s.host.exited then some (false, s)
      else some (!s.halted, say shown s)

/-- Answer lines in turn, each after a prompt, until one of them is the last. -/
def converse (fuel : Nat) : List String → State Terminal → Option (State Terminal)
  | [], s => some (say prompt s)
  | line :: lines, s =>
    match step fuel line (say prompt s) with
    | none => none
    | some (true, s) => converse fuel lines s
    | some (false, s) => some s

/-- Run a script before a session: its fault, if it has one, is written out. -/
def runScript (fuel : Nat) (source : String) (s : State Terminal) : Option (State Terminal) :=
  match s.evaluate fuel source with
  | none => none
  | some (.finished s) => some s
  | some (.stopped e s) => some (say (e.text ++ "\n") s)

/-- How a process begins: its state before the first line, or what it leaves behind if its
    script cannot be read or ends it. -/
def opening (fuel : Nat) (files : Files) (script : Option String) :
    Option (Except Result (State Terminal)) :=
  let s : State Terminal := { host := { files := files } }
  match script with
  | none => some (.ok (say greeting s))
  | some path =>
    match files.readText path with
    | .error e => some (.error (unreadable files path e))
    | .ok source =>
      (runScript fuel source s).map fun s =>
        if isOver s then .error (result s) else .ok (say greeting s)
where
  unreadable (files : Files) (path : String) (e : HostError) : Result :=
    { stdout := "", stderr := s!"Could not read {path}: " ++ e.text ++ "\n", status := 1, files }

/-- Run the program on some files, with a script if one is given, and with all of its
    input. -/
def run (fuel : Nat) (files : Files) (script : Option String) (input : String) :
    Option Result :=
  match opening fuel files script with
  | none => none
  | some (.error r) => some r
  | some (.ok s) => (converse fuel (linesOf input) s).map result

end Catena.Dialogue
