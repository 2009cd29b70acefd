import Catena.Host
import Catena.Workspace

/-!
# The terminal

A host with the files of a directory. What a program writes goes to the terminal. Its
commands are handed to an interpreter, which is no part of the program and may be any
(`Interpreter`); what they write comes back to the program, as text in which ill-formed
bytes are replaced. A program that asks to end is ended at once.
-/

namespace Catena

/-- What carries out the commands of a program. -/
class Interpreter where
  /-- What a command writes when it is run on some files, and the files after it. -/
  run : (command : String) → Files → Bytes × Files

/-- A host with a directory and an output. -/
structure Terminal where
  files : Files
  /-- What has been written to the terminal. -/
  output : String := ""
  /-- Whether the program has been ended. -/
  exited : Bool := false

instance [Interpreter] : Host Terminal where
  print text h := { h with output := h.output ++ text }
  load path h := (h.files.readText path, h)
  command command h :=
    if command.toList.contains '\x00' then (.error .containsNul, h)
    else
      let (out, files) := Interpreter.run command h.files
      (.ok (Utf8.decodeLossy out), { h with files := files })
  save path text h :=
    match h.files.write path (Utf8.encode text) with
    | .ok files => (.ok (), { h with files := files })
    | .error e => (.error e, h)
  exit h := { h with exited := true }

end Catena
