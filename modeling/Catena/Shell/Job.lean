import Catena.Shell.Script
import Catena.Shell.Text

/-!
# Jobs of a shell

What a shell keeps between commands, and what a command may do to it. A job changes the
shell and gives an answer. It may leave its place, as the commands `exit` and `break` do,
and it may be given up, without a result, if it goes on for too long.
-/

namespace Catena.Shell

/-- Where a stream is written to. -/
inductive Sink where
  /-- To what the script gives as its output. -/
  | captured
  | dropped
  /-- At the end of a file. -/
  | file (name : String)

/-- What a shell keeps between commands. -/
structure Status where
  files : Files
  values : Dictionary Bytes := .empty
  /-- The positional parameters. -/
  args : List Bytes := []
  functions : Dictionary Command := .empty
  /-- The status of the last command: zero for success. -/
  code : Nat := 0
  /-- What is still to be read. -/
  input : Bytes := []
  out : Sink := .captured
  err : Sink := .dropped
  /-- What has been captured, the last byte in front. -/
  captured : Bytes := []

/-- Why a script leaves the place where it is. -/
inductive Leave where
  | exit
  | return
  | break (loops : Nat)
  | continue (loops : Nat)

/-- What a command does: a change of the shell, which may leave its place. It has no result
    if it is given up. -/
abbrev Job := ExceptT Leave (StateT Status Option)

/-- A job that is given up. -/
def giveUp {α : Type} : Job α := fun _ => none

/-- A job that may leave its place, with what it left for. -/
def caught (j : Job Unit) : Job (Option Leave) := fun s =>
  match j s with
  | none => none
  | some (.ok (), s) => some (.ok none, s)
  | some (.error l, s) => some (.ok (some l), s)

/-- A job on a copy of the shell, whose files, input and output alone are kept. -/
def isolated (j : Job Unit) : Job Unit := fun s =>
  match j s with
  | none => none
  | some (_, s') =>
    some (.ok (), { s with
      files := s'.files, code := s'.code, input := s'.input, captured := s'.captured })

/-- What a job writes, which is not written elsewhere. -/
def outputOf (j : Job Unit) : Job Bytes := fun s =>
  match isolated j { s with out := .captured, captured := [] } with
  | none => none
  | some (_, s') =>
    some (.ok s'.captured.reverse, { s' with out := s.out, captured := s.captured })

/-- Leave a place, if there is a reason to. -/
def leave : Option Leave → Job Unit
  | none => return
  | some l => throw l

def setCode (n : Nat) : Job Unit := modify fun s => { s with code := n }

/-- End the script with a status. -/
def abort {α : Type} (code : Nat) : Job α := do
  setCode code
  throw .exit

def assign (name : String) (v : Bytes) : Job Unit := modify fun s =>
  { s with values := s.values.insert name v }

/-- Write to a stream. -/
def emit (sink : Sink) (bs : Bytes) : Job Unit := modify fun s =>
  match sink with
  | .captured => { s with captured := bs.reverse ++ s.captured }
  | .dropped => s
  | .file name => { s with files := s.files.insert name ((s.files.get? name).getD [] ++ bs) }

/-- Write to the standard output. -/
def write (bs : Bytes) : Job Unit := do
  let s ← get
  emit s.out bs

def decimal (n : Int) : Bytes := bytes (toString n)

/-- A name or a path given as bytes. -/
def pathOf (bs : Bytes) : String := Utf8.decodeLossy bs

/-! ### Parameters -/

namespace Status

/-- The value of a parameter, if it has one. -/
def parameter? (s : Status) (name : String) : Option Bytes :=
  match name with
  | "?" => some (decimal s.code)
  | "#" => some (decimal s.args.length)
  | "@" | "*" => if s.args.isEmpty then none else some ((s.args.intersperse (bytes " ")).flatten)
  | "$" => some (bytes "1")
  | "!" => none
  | "-" => some []
  | "0" => some (bytes "sh")
  | _ =>
    if name.toList.all Char.isDigit then s.args[Nat.ofDigitChars 10 name.toList 0 - 1]?
    else s.values.get? name

/-- The value of a parameter, which is empty if it has none. -/
def valueOf (s : Status) (name : String) : Bytes := (s.parameter? name).getD []

/-- Whether a parameter has no value, or an empty one where this is no value. -/
def lacks (s : Status) (name : String) (orEmpty : Bool) : Bool :=
  match s.parameter? name with
  | none => true
  | some v => orEmpty && v.isEmpty

/-- The number that a name stands for in an arithmetic expression. -/
def number (s : Status) (name : String) : Option Int :=
  match s.values.get? name with
  | none => some 0
  | some v =>
    if v.isEmpty then some 0
    else
      let (n, whole) := integer v
      if whole then some n else none

end Status

/-! ### Words -/

/-- The words that pieces make up, the latest in front, and the word that is open, with
    its last byte in front. -/
structure Fields where
  closed : List (List Glyph) := []
  current : Option (List Glyph) := none

namespace Fields

def isGap (b : UInt8) : Bool := b = byte ' ' || b = byte '\t' || b = byte '\n'

/-- The bytes at which words are split if the script sets no others. -/
def defaultGaps : Bytes := [byte ' ', byte '\t', byte '\n']

/-- The fields with the open word closed. -/
def close (f : Fields) : Fields :=
  match f.current with
  | none => f
  | some g => { closed := g.reverse :: f.closed, current := none }

/-- Add bytes to the open word. -/
def add (quoted : Bool) (bs : Bytes) (f : Fields) : Fields :=
  if bs.isEmpty && !quoted then f
  else { f with current := some ((bs.map (·, quoted)).reverse ++ f.current.getD []) }

/-- Add the bytes of an expansion, split into words at some bytes. Each of these ends a
    word; blanks among them and around the others only part the words. -/
def split (gaps : Bytes) (f : Fields) (bs : Bytes) : Fields :=
  let step : Fields × Bool → UInt8 → Fields × Bool := fun (f, isOpen) b =>
    if !gaps.contains b then (f.add false [b], true)
    else if isGap b then (f.close, isOpen)
    else if isOpen then (f.close, false)
    else ((f.add true []).close, false)
  (bs.foldl step (f, f.current.isSome)).1

/-- Add several values, each of which ends a word, save the last. -/
def addAll (addOne : Fields → Bytes → Fields) : Fields → List Bytes → Fields
  | f, [] => f
  | f, [v] => addOne f v
  | f, v :: vs => addAll addOne (addOne f v).close vs

def toList (f : Fields) : List (List Glyph) := f.close.closed.reverse

end Fields

/-- The bytes at which words are split. -/
def Status.gaps (s : Status) : Bytes := (s.values.get? "IFS").getD Fields.defaultGaps

/-- The fields with the values of a piece of a word. -/
def Fields.addPiece (gaps : Bytes) (p : Piece) (vs : List Bytes) (f : Fields) : Fields :=
  match p with
  | .text t isQuoted => f.add isQuoted (bytes t)
  | .parameter name _ _ true =>
    if name = "@" then addAll (fun f v => f.add true v) f vs else f.add true vs.flatten
  | .arithmetic _ true | .output _ true => f.add true vs.flatten
  | _ => addAll (split gaps) f vs

/-- The names that a pattern for files fits, in order; names that begin with a point
    need a pattern that does. -/
def globbed (files : Files) (g : List Glyph) : List Bytes :=
  let plain := g.map (·.1)
  if Pattern.isSpecial g then
    let names := files.entries.map fun (n, _) => bytes n
    let shown := names.filter fun n =>
      Pattern.matches? g n && (n.head? ≠ some (byte '.') || plain.head? = some (byte '.'))
    if shown.isEmpty then [plain] else shown
  else [plain]

/-- Bytes without the line feeds at their end. -/
def dropFinalLines (bs : Bytes) : Bytes :=
  (bs.reverse.dropWhile (· = byte '\n')).reverse

end Catena.Shell
