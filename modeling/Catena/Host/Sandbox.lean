import Catena.Dictionary
import Catena.Host

/-!
# The sandbox

A host without a world behind it: what is written out is collected, files are kept in
memory under their names as they are given, commands are refused, and the end of the
program is noted.
-/

namespace Catena

/-- A host that keeps everything in memory. -/
structure Sandbox where
  /-- What has been written out. -/
  output : String := ""
  files : Dictionary String := .empty
  /-- Whether the program has asked to end. -/
  exited : Bool := false

namespace Sandbox

/-- What has been written out, and the sandbox with nothing written. -/
def takeOutput (h : Sandbox) : String × Sandbox :=
  (h.output, { h with output := "" })

instance : Host Sandbox where
  print text h := { h with output := h.output ++ text }
  load path h :=
    match h.files.get? path with
    | some text => (.ok text, h)
    | none => (.error (.unknownFile path), h)
  command command h := (.error (.commandsDisabled command), h)
  save path text h := (.ok (), { h with files := h.files.insert path text })
  exit h := { h with exited := true }

variable {h h' : Sandbox} {a : Except HostError String}

@[simp]
theorem exited_print (text : String) : (Host.print text h).exited = h.exited := rfl

@[simp]
theorem exited_exit : (Host.exit h).exited = true := rfl

/-- To read a file or to refuse a command leaves a sandbox as it was. -/
theorem eq_of_load {path : String} (ha : Host.load path h = (a, h')) : h' = h := by
  simp only [Host.load] at ha
  split at ha <;> cases ha <;> rfl

theorem eq_of_command {command : String} (ha : Host.command command h = (a, h')) : h' = h := by
  cases ha
  rfl

theorem exited_of_load {path : String} (ha : Host.load path h = (a, h')) :
    h'.exited = h.exited := by
  rw [eq_of_load ha]

theorem exited_of_command {command : String} (ha : Host.command command h = (a, h')) :
    h'.exited = h.exited := by
  rw [eq_of_command ha]

theorem exited_of_save {path text : String} {a : Except HostError Unit}
    (ha : Host.save path text h = (a, h')) : h'.exited = h.exited := by
  cases ha
  rfl

end Sandbox

end Catena
