/-!
# Hosts

The outside world as a running program sees it. A host is a state with five operations:
it writes text out, reads and writes files, runs commands, and is told when the program
ends. What the world answers depends on its state and may change it.

A host operation that fails gives a `HostError`, which names the cause.
-/

namespace Catena

/-- Why an operation of a host fails. -/
inductive HostError where
  /-- A host that keeps its files in memory has no file of this name. -/
  | unknownFile (path : String)
  /-- A host that runs no commands is given one. -/
  | commandsDisabled (command : String)
  /-- Nothing is under a path. -/
  | noSuchFile
  /-- A path goes on below something that is no directory. -/
  | notDirectory
  /-- A directory is where a file is needed. -/
  | isDirectory
  /-- A name is too long for a file. -/
  | nameTooLong
  /-- A path or a command contains the character NUL. -/
  | containsNul
  /-- The bytes of a file are no text. -/
  | notText
deriving DecidableEq, Repr

/-- The text of a host error. -/
def HostError.text : HostError → String
  | .unknownFile path => "no such file: " ++ path
  | .commandsDisabled command => "commands are disabled in the sandbox: " ++ command
  | .noSuchFile => "No such file or directory (os error 2)"
  | .notDirectory => "Not a directory (os error 20)"
  | .isDirectory => "Is a directory (os error 21)"
  | .nameTooLong => "File name too long (os error 36)"
  | .containsNul => "file name contained an unexpected NUL byte"
  | .notText => "stream did not contain valid UTF-8"

/-- The outside world of a running program, as a state and the operations on it. -/
class Host (H : Type) where
  /-- Write a text out as it is. -/
  print : String → H → H
  /-- The text of a whole file. -/
  load : String → H → Except HostError String × H
  /-- Run a command and give what it writes. -/
  command : String → H → Except HostError String × H
  /-- Create a file of this path, or replace it, with the given text. -/
  save : (path text : String) → H → Except HostError Unit × H
  /-- The program asks to end. -/
  exit : H → H

end Catena
