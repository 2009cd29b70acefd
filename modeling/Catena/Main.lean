import Catena.Dialogue

/-!
# The command line

The program works on the regular files of the current directory: it reads them at its
start, and after every line it brings the directory up to date. Its one argument, which
may be missing, is the path of a script. What it decides is decided by `Dialogue`.
-/

namespace Catena.Console

/-- How many items one line may carry out. -/
def patience : Nat := 1000000000000000

/-- The regular files of the current directory. -/
def loadFiles : IO Files := do
  let mut files : Files := .empty
  for entry in ← (← IO.currentDir).readDir do
    if (← entry.path.metadata).type == .file then
      files := files.insert entry.fileName (← IO.FS.readBinFile entry.path).toList
  return files

/-- Write out what a state has collected, and bring the directory up to date with its
    files. -/
def settle (before : Files) (s : State Terminal) : IO (State Terminal) := do
  IO.print s.host.output
  (← IO.getStdout).flush
  for (name, bs) in s.host.files.entries do
    if before.get? name ≠ some bs then IO.FS.writeBinFile name ⟨bs.toArray⟩
  for (name, _) in before.entries do
    if (s.host.files.get? name).isNone then IO.FS.removeFile name
  return { s with host := { s.host with output := "" } }

/-- Tell that a program has not ended in time. -/
def giveUp : IO Unit := IO.eprintln "The program does not end."

/-- Answer the lines of the input in turn. -/
partial def converse (s : State Terminal) : IO Unit := do
  let s ← settle s.host.files (Dialogue.say Dialogue.prompt s)
  let line ← (← IO.getStdin).getLine
  unless line.isEmpty do
    match Dialogue.step patience line s with
    | none => giveUp
    | some (goesOn, after) =>
      let after ← settle s.host.files after
      if goesOn then converse after

end Catena.Console

open Catena Console in
def main (args : List String) : IO UInt32 := do
  let files ← loadFiles
  match Dialogue.opening patience files args.head? with
  | none => giveUp; return 1
  | some (.error r) =>
    let _ ← settle files { host := { files := r.files, output := r.stdout } }
    IO.eprint r.stderr
    return r.status.toUInt32
  | some (.ok s) =>
    converse (← settle files s)
    return 0
