import Catena.Dialogue
import Catena.Proofs.Effect
import Catena.Proofs.Nesting
import Catena.Proofs.Runs
import Catena.Proofs.Workspace

/-!
# What the terminal keeps

A program changes its host through the operations of the host only. What each of these
operations keeps is therefore kept by a whole run, nested runs and failed ones included
(`Host.Keeps`, `State.Runs.keeps`), by a session and by a dialogue.

For the terminal this gives:

* what has been written out stays in front of all that is written later
  (`Terminal.keeps_output`);
* the files keep names that files may have, if the interpreter of commands sees to this
  (`LawfulInterpreter`, `Terminal.keeps_wellNamed`, `Dialogue.wellNamed_run`);
* a text that has been saved can be loaded (`Terminal.load_save`).
-/

namespace Catena

/-- A property of a host that all of its operations keep. -/
structure Host.Keeps {H : Type} [Host H] (P : H → Prop) : Prop where
  print {h} (text : String) : P h → P (Host.print text h)
  load {h h' path a} : Host.load path h = (a, h') → P h → P h'
  command {h h' command a} : Host.command command h = (a, h') → P h → P h'
  save {h h' path text a} : Host.save path text h = (a, h') → P h → P h'
  exit {h} : P h → P (Host.exit h)

/-! ### Runs -/

section Runs

variable {H : Type} [Host H] {P : H → Prop} {s s' : State H} {d : Demand} {v : Value}

/-- A core word that rewrites the stack asks the host for one thing at most. -/
theorem Word.Rewrites.keeps {w : Word} {taken pushed : List Value} {h h' : H}
    (hr : w.Rewrites taken h pushed h') (hP : Host.Keeps P) (hh : P h) : P h' := by
  cases hr with
  | print => exact hP.print _ hh
  | load ha | loadFails ha => exact hP.load ha hh
  | command ha | commandFails ha => exact hP.command ha hh
  | write ha | writeFails ha => exact hP.save ha hh
  | _ => exact hh

/-- What the operations of a host keep, core words keep. -/
theorem Word.Effect.keeps {w : Word} (h : w.Effect s d s') (hP : Host.Keeps P)
    (hs : P s.host) : P s'.host := by
  cases h with
  | rewrite hr => exact hr.keeps hP hs
  | printStack => exact hP.print _ hs
  | exit => exact hP.exit hs
  | _ => exact hs

namespace State

variable {source : String} {log : List (Event H)} {r : Ending H} {fuel : Nat}

theorem Carries.keeps (h : Carries v s d s') (hP : Host.Keeps P) (hs : P s.host) :
    P s'.host := by
  cases h with
  | core _ _ he => exact he.keeps hP hs
  | literal | bound => exact hs

theorem keeps_dispatch {t u : State H} (hP : Host.Keeps P) (ht : s.turn = .item v t)
    (hd : dispatch v t = .ok d u) (hs : P s.host) : P u.host := by
  obtain ⟨-, _, -, -, rfl⟩ := turn_eq_item.1 ht
  exact (carries_of_dispatch hd).keeps hP hs

/-- What every operation of a host keeps is kept by every run. -/
theorem Runs.keeps (h : Runs s log r) (hP : Host.Keeps P) (hs : P s.host) : P r.state.host := by
  induction h with
  | idle => exact hs
  | stop ht =>
    obtain ⟨-, _, _, _, -, -, -, rfl⟩ := turn_eq_stop.1 ht
    exact hs
  | fail ht hd =>
    obtain ⟨-, _, -, -, rfl⟩ := turn_eq_item.1 ht
    obtain ⟨-, rfl⟩ := fails_of_dispatch hd
    exact hs
  | step ht hd _ ih => exact ih (keeps_dispatch hP ht hd hs)
  | refuse ht hd _ _ ih =>
    have hu := keeps_dispatch hP ht hd hs
    exact ih hu
  | nest ht hd _ _ _ ihi ih =>
    -- A nested run starts with the host of the outer one, and leaves its own behind.
    have hu := keeps_dispatch hP ht hd hs
    refine ih ?_
    rw [Ending.withStatus_host, settle_host]
    exact ihi hu

/-- What every operation of a host keeps is kept when a text is run. -/
theorem keeps_evaluate (h : evaluate fuel source s = some r) (hP : Host.Keeps P)
    (hs : P s.host) : P r.state.host := by
  obtain ⟨log, he⟩ := exists_evaluates_of_evaluate h
  cases he with
  | refuse => exact hs
  | nest _ hr =>
    rw [settle_host]
    exact hr.keeps hP hs

end State

/-- An answer in a session leaves the host to what the line runs. -/
theorem Session.keeps_answer {fuel : Nat} {line : String} {shown : Option String}
    (h : Session.answer fuel line s = some (shown, s')) (hP : Host.Keeps P) (hs : P s.host) :
    P s'.host := by
  unfold Session.answer at h
  split at h
  case h_5 =>
    split at h
    case h_1 => cases h
    case h_2 he | h_3 he =>
      cases h
      exact State.keeps_evaluate he hP hs
  all_goals
    cases h
    exact hs

end Runs

/-! ### The terminal -/

/-- An interpreter that gives files no names but those that files may have. -/
class LawfulInterpreter [Interpreter] : Prop where
  wellNamed_run {command : String} {files : Files} :
    files.WellNamed → (Interpreter.run command files).2.WellNamed

namespace Terminal

variable [Interpreter] {h h' : Terminal} {path text command : String}

/-- A command changes the files only, as the interpreter does. -/
theorem eq_or_eq_of_command {a : Except HostError String}
    (ha : Host.command command h = (a, h')) :
    h' = h ∨ h' = { h with files := (Interpreter.run command h.files).2 } := by
  simp only [Host.command] at ha
  split at ha
  · cases ha
    exact .inl rfl
  · cases ha
    exact .inr rfl

/-- A text is written, or nothing is changed. -/
theorem eq_or_write_of_save {a : Except HostError Unit}
    (ha : Host.save path text h = (a, h')) :
    h' = h ∨ ∃ files, h.files.write path (Utf8.encode text) = .ok files ∧
      h' = { h with files := files } := by
  simp only [Host.save] at ha
  split at ha
  case h_1 files hw =>
    cases ha
    exact .inr ⟨files, hw, rfl⟩
  case h_2 =>
    cases ha
    exact .inl rfl

/-- What has been written to the terminal stays there. -/
theorem keeps_output (output : String) :
    Host.Keeps fun h : Terminal => ∃ more, h.output = output ++ more where
  print := by
    rintro h text ⟨more, hm⟩
    exact ⟨more ++ text, by rw [← String.append_assoc, ← hm]; rfl⟩
  load := by
    rintro h h' path a ha hm
    cases ha
    exact hm
  command := by
    rintro h h' command a ha hm
    rcases eq_or_eq_of_command ha with rfl | rfl <;> exact hm
  save := by
    rintro h h' path text a ha hm
    rcases eq_or_write_of_save ha with rfl | ⟨_, -, rfl⟩ <;> exact hm
  exit h := h

/-- The files keep names that files may have. -/
theorem keeps_wellNamed [LawfulInterpreter] :
    Host.Keeps fun h : Terminal => h.files.WellNamed where
  print _ h := h
  load := by
    rintro h h' path a ha hw
    cases ha
    exact hw
  command := by
    rintro h h' command a ha hw
    rcases eq_or_eq_of_command ha with rfl | rfl
    · exact hw
    · exact LawfulInterpreter.wellNamed_run hw
  save := by
    rintro h h' path text a ha hw
    rcases eq_or_write_of_save ha with rfl | ⟨files, hs, rfl⟩
    · exact hw
    · exact hw.write hs
  exit h := h

/-- A text that has been saved can be loaded, unless it was saved where nothing stays. -/
theorem load_save (hs : Host.save path text h = (.ok (), h')) (hp : path ≠ "/dev/null") :
    Host.load path h' = (.ok text, h') := by
  simp only [Host.save] at hs
  split at hs
  case h_1 files hw =>
    cases hs
    exact Prod.ext (Files.readText_write hw hp) rfl
  case h_2 => cases hs

end Terminal

/-! ### Dialogues -/

namespace Dialogue

variable [Interpreter] {fuel : Nat} {s s' : State Terminal} {P : Terminal → Prop}

/-- One line of a dialogue keeps what the operations of the host keep. -/
theorem keeps_step {line : String} {goesOn : Bool} (h : step fuel line s = some (goesOn, s'))
    (hP : Host.Keeps P) (hs : P s.host) : P s'.host := by
  unfold step at h
  extract_lets line' at h
  split at h
  case isTrue =>
    cases h
    exact hs
  case isFalse =>
    split at h
    case h_1 => cases h
    case h_2 ha =>
      cases h
      exact Session.keeps_answer ha hP hs
    case h_3 ha =>
      have := Session.keeps_answer ha hP hs
      split at h
      · cases h
        exact this
      · cases h
        exact hP.print _ this

/-- So do all lines, with what is written between them. -/
theorem keeps_converse {lines : List String} (h : converse fuel lines s = some s')
    (hP : Host.Keeps P) (hs : P s.host) : P s'.host := by
  induction lines generalizing s with
  | nil =>
    cases h
    exact hP.print _ hs
  | cons line lines ih =>
    unfold converse at h
    split at h
    case h_1 => cases h
    case h_2 he => exact ih h (keeps_step he hP (hP.print _ hs))
    case h_3 he =>
      cases h
      exact keeps_step he hP (hP.print _ hs)

/-- So does a script that is run first. -/
theorem keeps_runScript {source : String} (h : runScript fuel source s = some s')
    (hP : Host.Keeps P) (hs : P s.host) : P s'.host := by
  unfold runScript at h
  split at h
  case h_1 => cases h
  case h_2 he =>
    cases h
    exact State.keeps_evaluate he hP hs
  case h_3 he =>
    cases h
    exact hP.print _ (State.keeps_evaluate he hP hs)

/-- A process that ends before its dialogue leaves well-named files, and so does its script. -/
theorem wellNamed_opening [LawfulInterpreter] {files : Files} {script : Option String}
    {a : Except Result (State Terminal)} (h : opening fuel files script = some a)
    (hf : files.WellNamed) :
    (∀ r, a = .error r → r.files.WellNamed) ∧ ∀ s, a = .ok s → s.host.files.WellNamed := by
  unfold opening at h
  extract_lets s at h
  split at h
  case h_1 =>
    cases h
    exact ⟨nofun, fun _ he => by cases he; exact hf⟩
  case h_2 =>
    split at h
    case h_1 =>
      cases h
      exact ⟨fun _ he => by cases he; exact hf, nofun⟩
    case h_2 =>
      obtain ⟨s', hr, rfl⟩ := Option.map_eq_some_iff.1 h
      have hs := keeps_runScript hr Terminal.keeps_wellNamed hf
      split
      · exact ⟨fun _ he => by cases he; exact hs, nofun⟩
      · exact ⟨nofun, fun _ he => by cases he; exact hs⟩

/-- The files that a process leaves behind have names that files may have, if those that it
    finds do. -/
theorem wellNamed_run [LawfulInterpreter] {files : Files} {script : Option String}
    {input : String} {r : Result} (h : run fuel files script input = some r)
    (hf : files.WellNamed) : r.files.WellNamed := by
  unfold run at h
  split at h
  case h_1 => cases h
  case h_2 ho =>
    cases h
    exact (wellNamed_opening ho hf).1 _ rfl
  case h_3 ho =>
    obtain ⟨s', hc, rfl⟩ := Option.map_eq_some_iff.1 h
    exact keeps_converse hc Terminal.keeps_wellNamed ((wellNamed_opening ho hf).2 _ rfl)

end Dialogue

end Catena
