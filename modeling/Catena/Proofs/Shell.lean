import Catena.Proofs.Jobs
import Catena.Proofs.Terminal
import Catena.Shell

/-!
# The shell's patience

The shell carries out a script as deep as its fuel lasts. What it comes to does not depend on
how much that is: with more fuel it comes to the same (`Shell.run_mono`), so that a script has
at most one result (`Shell.run_unique`). No script gives a file a name that it may not have
(`Shell.wellNamed_run`), which makes the shell a lawful interpreter for the terminal.

Both follow from what one step of the shell preserves: with calls that come to no less, a
command comes to no less (`Shell.Calls.Within.execCommand`), and so do the calls themselves
(`Shell.within_calls`).
-/

namespace Catena.Shell

open Job (Within Keeps)

variable {P : String → Prop}

namespace Calls

/-! ### Jobs that call no others -/

theorem keeps_calculate (source : Bytes) : Keeps P (calculate source) := by
  refine .get fun s hs => ?_
  split
  · exact .bind (.set ⟨hs.files, hs.out, hs.err⟩) fun _ => .pure _
  · exact keeps_abort 2

/-- A stream may be pointed to files of the names in question. -/
theorem keeps_point (stream : Nat) {sink : Sink} (hk : sink.Confined P) :
    Keeps P (point stream sink) := by
  refine .bind (.modify fun s hs => ?_) fun _ => .pure _
  split_ifs
  · exact ⟨hs.files, hk, hs.err⟩
  · exact ⟨hs.files, hs.out, hk⟩
  · exact hs

/-- A redirection makes a file only under a name that a path can lead to. -/
theorem keeps_openFile (stream : Nat) (empty : Bool) (path : String)
    (hP : ∀ name, Files.IsFileName name → P name) : Keeps P (openFile stream empty path) := by
  refine .get fun s hs => ?_
  split
  case h_1 name hl =>
    have hn := hP name (Files.isFileName_of_locate hl)
    refine .bind (.set ?_) fun _ => keeps_point _ hn
    split
    · exact ⟨Dictionary.forall_get?_insert hs.files hn, hs.out, hs.err⟩
    · exact hs
  case h_2 => exact keeps_point _ (show Sink.Confined P .dropped from trivial)
  case h_3 => exact .pure _

/-- The places that streams lead to may be handed on among them. -/
theorem keeps_redirect (stream : Nat) (how : Redirection) (target : Bytes)
    (hP : ∀ name, Files.IsFileName name → P name) :
    Keeps P (redirect stream how target) := by
  refine .get fun s hs => ?_
  -- Only the redirections to a path can make a file; the others take what is there already.
  cases how with
  | source =>
    dsimp only
    split
    · exact .bind (.set ⟨hs.files, hs.out, hs.err⟩) fun _ => .pure _
    · exact .pure _
  | document | indented => exact .bind (.set ⟨hs.files, hs.out, hs.err⟩) fun _ => .pure _
  | replace | extend => exact keeps_openFile _ _ _ hP
  | duplicate =>
    exact .ite (fun _ => keeps_point _ hs.out) fun _ => .ite (fun _ => keeps_point _ hs.err)
      fun _ => .ite (fun _ => keeps_point _ (show Sink.Confined P .dropped from trivial))
      fun _ => .pure _

/-- Streams are given back as they were, and they were confined then. -/
theorem within_redirected (isLasting readsInput : Bool) {r r' : Job Bool} {j j' : Job Unit}
    (hr : r.Within P r') (hj : j.Within P j') :
    (redirected isLasting readsInput r j).Within P (redirected isLasting readsInput r' j') := by
  have ha : (redirected.afterwards r j).Within P (redirected.afterwards r' j') :=
    .bind hr fun _ => .ite (fun _ => hj.caught) fun _ =>
      .bind (keeps_setCode 2) fun _ => .pure _
  refine .get fun before hb => .bind ha fun left => .bind (.modify fun s hs => ?_) fun _ => ?_
  · split
    · exact hs
    · exact ⟨hs.files, hb.out, hb.err⟩
  · exact keeps_leave left

/-- A loop goes on in the same way after parts that end in the same way. -/
theorem within_goOn (left : Option Leave) {j j' : Job Unit} (hj : j.Within P j') :
    (goOn left j).Within P (goOn left j') := by
  unfold Calls.goOn
  split
  · exact hj
  · exact .ite (fun _ => hj) fun _ => .throw _
  · exact .ite (fun _ => keeps_setCode 0) fun _ => .throw _
  · exact .throw _

/-- The arguments of a function are its own. The files are those of the shell. -/
theorem within_called (args : List Bytes) {j j' : Job Unit} (hj : j.Within P j') :
    (called args j).Within P (called args j') :=
  .get fun _ hs => .bind (.set ⟨hs.files, hs.out, hs.err⟩) fun _ => .bind hj.caught fun _ =>
    .bind (.modify fun _ hs => ⟨hs.files, hs.out, hs.err⟩) fun _ => .pure _

theorem keeps_leaveWith (l : Leave) (args : List Bytes) : Keeps P (leaveWith l args) :=
  .bind (.modify fun _ hs => ⟨hs.files, hs.out, hs.err⟩) fun _ => .throw _

/-- Variables are given back their values, which are not files. -/
theorem keeps_restore (names : List String) (before : Status) : Keeps P (restore names before) :=
  .modify fun _ hs => ⟨hs.files, hs.out, hs.err⟩

end Calls

/-- Calls of which one comes to no less than the other, whatever is called. -/
structure Calls.Within (P : String → Prop) (c c' : Calls) : Prop where
  values p : (c.values p).Within P (c'.values p)
  exec a : (c.exec a).Within P (c'.exec a)
  loop untilSuccess condition body code :
    (c.loop untilSuccess condition body code).Within P (c'.loop untilSuccess condition body code)
  invoke assignments args : (c.invoke assignments args).Within P (c'.invoke assignments args)

namespace Calls.Within

variable {c c' : Calls} (h : c.Within P c')
include h

/-! ### Words -/

/-- The pieces of a word have their values from calls. -/
theorem glyphs : ∀ w : ScriptWord, (c.glyphs w).Within P (c'.glyphs w)
  | [] => .pure _
  | p :: ps => .bind (h.values p) fun _ => .bind (glyphs ps) fun _ => .pure _

theorem joined (w : ScriptWord) : (c.joined w).Within P (c'.joined w) :=
  .bind (h.glyphs w) fun _ => .pure _

theorem fields : ∀ (w : ScriptWord) (f : Fields), (c.fields w f).Within P (c'.fields w f)
  | [], _ => .pure _
  | p :: ps, _ => .bind (h.values p) fun _ => .get fun _ _ => fields ps _

theorem arguments : ∀ ws : List ScriptWord, (c.arguments ws).Within P (c'.arguments ws)
  | [] => .pure _
  | w :: ws => .bind (h.fields w _) fun _ => .get fun _ _ => .bind (arguments ws) fun _ => .pure _

/-- An operator looks at its parameter first, and makes its argument only if it is needed. -/
theorem expand (name : String) (argument : ScriptWord) :
    ∀ operator, (c.expand name argument operator).Within P (c'.expand name argument operator)
  | .value | .length => .get fun _ _ => .pure _
  | .preset _ => .get fun _ _ => .ite (fun _ => h.joined _) fun _ => .pure _
  | .assign _ => .get fun _ _ => .ite
      (fun _ => .bind (h.joined _) fun _ => .bind (keeps_assign _ _) fun _ => .pure _)
      fun _ => .pure _
  | .replace _ => .get fun _ _ => .ite (fun _ => .pure _) fun _ => h.joined _
  | .demand _ => .get fun _ _ => .ite (fun _ => keeps_abort 2) fun _ => .pure _
  | .dropFront _ | .dropEnd _ => .get fun _ _ => .bind (h.glyphs _) fun _ => .pure _

/-- A piece that is a command has the output of a call. -/
theorem valuesOf : ∀ p, (c.valuesOf p).Within P (c'.valuesOf p)
  | .text _ _ => .pure _
  | .arithmetic _ _ => .bind (h.joined _) fun _ => .bind (keeps_calculate _) fun _ => .pure _
  | .output a _ => .bind (h.exec a).outputOf fun _ => .pure _
  | .parameter _ _ _ _ => .ite (fun _ => .get fun _ _ => .pure _) fun _ =>
      .bind (h.expand _ _ _) fun _ => .pure _

/-! ### Redirections -/

/-- Only redirections make files, and they make them where paths lead. -/
theorem redirectAll (hP : ∀ name, Files.IsFileName name → P name) :
    ∀ rs, (c.redirectAll rs).Within P (c'.redirectAll rs)
  | [] => .pure _
  | (_, _, target) :: rs =>
    .bind (h.joined target) fun _ => .bind (keeps_redirect _ _ _ hP) fun _ =>
      .ite (fun _ => redirectAll hP rs) fun _ => .pure _

theorem execWith (args : List Bytes) (a : Command) :
    (c.execWith args a).Within P (c'.execWith args a) := by
  cases a with
  | simple assignments _ => exact h.invoke assignments args
  | _ => exact h.exec _

/-! ### Loops and choices -/

/-- A loop calls its condition and its body, and itself for the next round. -/
theorem execLoop (untilSuccess : Bool) (condition body : Command) (code : Nat) :
    (c.execLoop untilSuccess condition body code).Within P
      (c'.execLoop untilSuccess condition body code) := by
  refine .bind (h.exec condition).caught fun left => ?_
  split
  · exact .throw _
  · refine within_goOn left (.get fun _ _ => .ite (fun _ => keeps_setCode code) fun _ => ?_)
    exact .bind (h.exec body).caught fun left => .get fun s _ => within_goOn left (h.loop _ _ _ _)

theorem execEach (name : String) (body : Command) :
    ∀ vs, (c.execEach name body vs).Within P (c'.execEach name body vs)
  | [] => .pure _
  | v :: vs =>
    .bind (keeps_assign name v) fun _ => .bind (h.exec body).caught fun left =>
      within_goOn left (execEach name body vs)

theorem fitsAny (bs : Bytes) : ∀ ps, (c.fitsAny bs ps).Within P (c'.fitsAny bs ps)
  | [] => .pure _
  | p :: ps => .bind (h.glyphs p) fun _ => .ite (fun _ => .pure _) fun _ => fitsAny bs ps

/-- The patterns of an arm are made one by one, up to the first that fits. -/
theorem execArms (bs : Bytes) : ∀ arms, (c.execArms bs arms).Within P (c'.execArms bs arms)
  | [] => keeps_setCode 0
  | (ps, a) :: arms => .bind (h.fitsAny bs ps) fun _ =>
      .ite (fun _ => .bind (keeps_setCode 0) fun _ => h.exec a) fun _ => execArms bs arms

/-! ### Simple commands -/

/-- A script is read in the same way for all calls. -/
theorem execScript (source : String) : (c.execScript source).Within P (c'.execScript source) :=
  .bind (.forM h.exec _) fun _ => .ite (fun _ => .pure _) fun _ => keeps_abort 2

theorem assignAll : ∀ as, (c.assignAll as).Within P (c'.assignAll as)
  | [] => .pure _
  | (n, w) :: as =>
    .bind (h.joined w) fun _ => .bind (keeps_assign n _) fun _ => assignAll as

theorem execPlain : ∀ args, (c.execPlain args).Within P (c'.execPlain args)
  | [] => keeps_setCode 0
  | _ :: args => .ite (fun _ => keeps_lookUp args) fun _ => h.invoke [] _

theorem execInstead : ∀ args, (c.execInstead args).Within P (c'.execInstead args)
  | [] => keeps_setCode 0
  | _ :: _ => .bind (h.invoke [] _) fun _ => .throw _

theorem execFile : ∀ args, (c.execFile args).Within P (c'.execFile args)
  | [] => keeps_setCode 2
  | _ :: _ => by
    refine .get fun s hs => ?_
    split
    · exact h.execScript _
    · exact keeps_abort 2

/-- The builtins that carry out others are the same for all calls. -/
theorem special? (name : String) (args : List Bytes) :
    Option.Rel (Job.Within P) (c.special? name args) (c'.special? name args) := by
  unfold Calls.special?
  split_ifs
  · exact .some (keeps_leaveWith _ _)
  · exact .some (keeps_leaveWith _ _)
  · exact .some (h.execScript _)
  · exact .some (h.execPlain args)
  · exact .some (h.execInstead args)
  · exact .some (h.execFile args)
  · exact .none

/-- A function is called, a builtin is carried out at once. -/
theorem run (assignments : List (String × ScriptWord)) :
    ∀ args, (c.run assignments args).Within P (c'.run assignments args)
  | [] => .bind (keeps_setCode 0) fun _ => h.assignAll assignments
  | name :: args => by
    refine .get fun before _ => .bind (h.assignAll assignments) fun _ => .get fun s _ => ?_
    have hs := h.special? (pathOf name) args
    cases s.functions.get? (pathOf name) with
    | some body =>
      exact .bind (within_called args (h.exec body)) fun left =>
        .bind (keeps_restore _ before) fun _ => keeps_leave left
    | none =>
      generalize c.special? (pathOf name) args = o at hs ⊢
      generalize c'.special? (pathOf name) args = o' at hs ⊢
      cases hs with
      | some hj => exact hj
      | none => exact .bind (keeps_runBuiltin _ args) fun _ => keeps_restore _ before

/-! ### Commands -/

/-- A command comes to no less if what it calls comes to no less. -/
theorem execCommand (hP : ∀ name, Files.IsFileName name → P name) :
    ∀ a, (c.execCommand a).Within P (c'.execCommand a)
  | .simple assignments words => .bind (h.arguments words) fun args => h.invoke assignments args
  | .redirected a redirections => .bind (h.arguments _) fun args =>
      within_redirected _ _ (h.redirectAll hP redirections) (h.execWith args a)
  | .sequence as => .forM h.exec as
  | .both a b => .bind (h.exec a) fun _ => .get fun _ _ =>
      .ite (fun _ => h.exec b) fun _ => .pure _
  | .either a b => .bind (h.exec a) fun _ => .get fun _ _ =>
      .ite (fun _ => .pure _) fun _ => h.exec b
  | .negated a => .bind (h.exec a) fun _ => .modify fun _ hs => ⟨hs.files, hs.out, hs.err⟩
  | .pipe a b => .bind (h.exec a).outputOf fun _ => .get fun _ hs =>
      .bind (.set ⟨hs.files, hs.out, hs.err⟩) fun _ => .bind (h.exec b).isolated fun _ =>
        .modify fun _ hs => ⟨hs.files, hs.out, hs.err⟩
  | .subshell a => (h.exec a).isolated
  | .branch a b d => .bind (h.exec a) fun _ => .get fun _ _ =>
      .ite (fun _ => h.exec b) fun _ => .bind (keeps_setCode 0) fun _ => h.exec d
  | .loop untilSuccess condition body => h.loop untilSuccess condition body 0
  | .each name words body => .bind (h.arguments words) fun vs =>
      .bind (keeps_setCode 0) fun _ => h.execEach name body vs
  | .choose word arms => .bind (h.joined word) fun bs => h.execArms bs arms
  | .function _ _ => .modify fun _ hs => ⟨hs.files, hs.out, hs.err⟩

end Calls.Within

/-! ### Scripts -/

/-- With more fuel the shell comes to no less. -/
theorem within_calls (hP : ∀ name, Files.IsFileName name → P name) :
    ∀ {n m : Nat}, n ≤ m → (calls n).Within P (calls m)
  | 0, _, _ =>
    ⟨fun _ => .giveUp _, fun _ => .giveUp _, fun _ _ _ _ => .giveUp _, fun _ _ => .giveUp _⟩
  | _ + 1, _ + 1, h =>
    have h := within_calls hP (Nat.le_of_succ_le_succ h)
    ⟨h.valuesOf, h.execCommand hP, h.execLoop, h.run⟩

/-- A shell that has just been started has all files that there are, and writes to none. -/
theorem confined_start {files : Files} (h : ∀ name bs, files.get? name = some bs → P name) :
    Status.Confined P { files } :=
  ⟨h, trivial, trivial⟩

/-- A script that is through has left its output and its files. -/
theorem run_eq_some {fuel : Nat} {source : String} {files : Files} {r : Bytes × Files}
    (h : run fuel source files = some r) :
    ∃ left t, (calls fuel).execScript source { files } = some (left, t) ∧
      r = (t.captured.reverse, t.files) := by
  obtain ⟨⟨left, t⟩, he, rfl⟩ := Option.map_eq_some_iff.1 h
  exact ⟨left, t, he, rfl⟩

/-- A script that is through comes to the same if the shell is more patient. -/
theorem run_mono {n m : Nat} {source : String} {files : Files} {r : Bytes × Files} (hnm : n ≤ m)
    (h : run n source files = some r) : run m source files = some r := by
  obtain ⟨left, t, he, rfl⟩ := run_eq_some h
  have hw := within_calls (P := fun _ => True) (fun _ _ => trivial) hnm
  have he' := (hw.execScript source _ (confined_start fun _ _ _ => trivial) _ _ he).1
  rw [run, he']
  rfl

/-- A script comes to one result at most, however patient the shell is. -/
theorem run_unique {n m : Nat} {source : String} {files : Files} {r r' : Bytes × Files}
    (h : run n source files = some r) (h' : run m source files = some r') : r = r' := by
  rcases Nat.le_total n m with hnm | hmn
  · exact Option.some.inj ((run_mono hnm h).symm.trans h')
  · exact Option.some.inj (h.symm.trans (run_mono hmn h'))

/-- No script gives a file a name that it may not have. -/
theorem wellNamed_run {fuel : Nat} {source : String} {files : Files} {r : Bytes × Files}
    (h : run fuel source files = some r) (hf : files.WellNamed) : r.2.WellNamed := by
  obtain ⟨left, t, he, rfl⟩ := run_eq_some h
  have hw := within_calls (fun _ hn => hn) (Nat.le_refl fuel)
  exact (hw.execScript source _ (confined_start hf) _ _ he).2.files

instance : LawfulInterpreter where
  wellNamed_run := by
    intro command files hf
    unfold Interpreter.run instInterpreter
    dsimp only
    cases h : run patience command files with
    | none => exact hf
    | some r => exact wellNamed_run h hf

end Catena.Shell
