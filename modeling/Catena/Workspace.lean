import Catena.Dictionary
import Catena.Host
import Catena.Text.Utf8

/-!
# Workspaces

The files that a program works on: one directory without subdirectories, whose files
hold bytes. A path names a place relative to it. A path may have empty and `.`
components, which change nothing; it may not go on below a file, and what lies outside
the directory is out of reach, save for the empty file `/dev/null`.
-/

namespace Catena

/-- A sequence of bytes: the content of a file, or what a command reads and writes. -/
abbrev Bytes := List UInt8

/-- The files of a directory under their names. -/
abbrev Files := Dictionary Bytes

namespace Files

/-- What a path leads to. -/
inductive Place where
  /-- A name in the directory, whether there is such a file or not. -/
  | file (name : String)
  | directory
  /-- The file that is always empty. -/
  | nowhere
deriving DecidableEq, Repr

/-- How many bytes a name may have. -/
def longestName : Nat := 255

/-- The parts of a path, between its slashes. -/
def components (path : String) : List String :=
  (path.toList.splitOn '/').map String.ofList

/-- The parts of a path that lead on. -/
def steps (path : String) : List String :=
  (components path).filter fun c => c ≠ "" ∧ c ≠ "."

/-- Why a path does not go on below a name. -/
def obstacle (files : Files) (name : String) : HostError :=
  if (files.get? name).isSome then .notDirectory else .noSuchFile

/-- What a path leads to, with what stands in its way as an error. -/
def locate (files : Files) (path : String) : Except HostError Place :=
  if path.toList.contains '\x00' then .error .containsNul
  else if path = "" then .error .noSuchFile
  else if path = "/dev/null" then .ok .nowhere
  else if (steps path).any (·.utf8ByteSize > longestName) then .error .nameTooLong
  else if (steps path).all (· = "..") then .ok .directory
  else if path.toList.head? = some '/' then .error .noSuchFile
  else
    match steps path with
    | [] => .ok .directory
    | [name] =>
      if (components path).getLast? = some name then .ok (.file name)
      else .error (files.obstacle name)
    | name :: _ => .error (files.obstacle name)

/-- The bytes of the file at a path. -/
def read (files : Files) (path : String) : Except HostError Bytes := do
  match ← files.locate path with
  | .nowhere => return []
  | .directory => throw .isDirectory
  | .file name =>
    match files.get? name with
    | some bs => return bs
    | none => throw .noSuchFile

/-- The files after a file has been written at a path. -/
def write (files : Files) (path : String) (bs : Bytes) : Except HostError Files := do
  match ← files.locate path with
  | .nowhere => return files
  | .directory => throw .isDirectory
  | .file name => return files.insert name bs

/-- The text of the file at a path, whose bytes must be well-formed. -/
def readText (files : Files) (path : String) : Except HostError String := do
  match Utf8.decode? (← files.read path) with
  | some t => return t
  | none => throw .notText

end Files

end Catena
