import Catena.Host.Sandbox
import Catena.Proofs.Halting
import Catena.Proofs.Lockstep
import Catena.Proofs.Transaction
import Catena.Session

/-!
# Lines that are forgotten

A line of a session that fails, or asks for something else than a program, shows a text and that
is all: the lines after it are answered as if it had never been given. What such a line may leave
behind is outside of the machine, namely what its program has written out before the fault, which
nothing in a sandbox can read (`State.congruence_sameButOutput`), and the files that it has saved
(`Executes`).

* `State.Runs.sameButOutput`: a run without the words `write` and `exit` leaves a sandbox as it
  was, but for its output;
* `Session.Forgettable.sameButOutput`: a line that is forgotten leaves everything else alone;
* `Session.answerAll_thinned`: such lines can be left out of a session.
-/

namespace Catena

/-! ### What has been written out -/

namespace Sandbox

/-- The sandbox with something else written out. -/
def withOutput (output : String) (h : Sandbox) : Sandbox := { h with output := output }

/-- The two sandboxes differ at most in what has been written out. -/
def SameButOutput (h h' : Sandbox) : Prop := ∃ output, h' = h.withOutput output

variable {h h' h'' : Sandbox} {output : String}

theorem SameButOutput.refl (h : Sandbox) : SameButOutput h h := ⟨h.output, rfl⟩

theorem SameButOutput.trans (hs : SameButOutput h h') (hs' : SameButOutput h' h'') :
    SameButOutput h h'' := by
  obtain ⟨o, rfl⟩ := hs
  obtain ⟨o', rfl⟩ := hs'
  exact ⟨o', rfl⟩

theorem sameButOutput_print (text : String) (h : Sandbox) :
    SameButOutput h (Host.print text h) :=
  ⟨h.output ++ text, rfl⟩

/-- What a sandbox is asked for does not depend on what has been written out. -/
theorem load_withOutput {path : String} {a : Except HostError String}
    (ha : Host.load path h = (a, h')) :
    Host.load path (h.withOutput output) = (a, h'.withOutput output) := by
  simp only [Host.load, withOutput] at ha ⊢
  split at ha <;> cases ha <;> simp_all

theorem command_withOutput {command : String} {a : Except HostError String}
    (ha : Host.command command h = (a, h')) :
    Host.command command (h.withOutput output) = (a, h'.withOutput output) := by
  cases ha
  rfl

theorem save_withOutput {path text : String} {a : Except HostError Unit}
    (ha : Host.save path text h = (a, h')) :
    Host.save path text (h.withOutput output) = (a, h'.withOutput output) := by
  cases ha
  rfl

end Sandbox

open Sandbox (SameButOutput)

/-- Whether a core word is carried out in a run, at any level of nesting: it comes up on a stack
    that its signature admits. -/
def Executes {H : Type} (w : Word) (log : List (Event H)) : Prop :=
  ∃ s, Event.item (.atom w.name) s ∈ log ∧ w.signature.admits s.stack = true

section Logs

variable {H : Type} {w : Word} {v : Value} {s : State H} {e : Fault} {log log' : List (Event H)}

@[simp]
theorem not_executes_nil : ¬ Executes w ([] : List (Event H)) := by
  simp [Executes]

@[simp]
theorem executes_item :
    Executes w (.item v s :: log) ↔
      (v = .atom w.name ∧ w.signature.admits s.stack = true) ∨ Executes w log := by
  constructor
  · rintro ⟨t, ht, ha⟩
    rcases List.mem_cons.1 ht with he | ht
    · cases he
      exact .inl ⟨rfl, ha⟩
    · exact .inr ⟨t, ht, ha⟩
  · rintro (⟨rfl, ha⟩ | ⟨t, ht, ha⟩)
    · exact ⟨s, List.mem_cons_self, ha⟩
    · exact ⟨t, List.mem_cons_of_mem _ ht, ha⟩

@[simp]
theorem executes_refusal : Executes w (.refusal e s :: log) ↔ Executes w log := by
  simp [Executes]

@[simp]
theorem executes_append : Executes w (log ++ log') ↔ Executes w log ∨ Executes w log' := by
  simp [Executes, or_and_right, exists_or]

end Logs

/-! ### Words in a sandbox -/

section Words

variable {w : Word} {s s' : State Sandbox} {v : Value} {d : Demand} {output : String}

theorem Word.Rewrites.withOutput {taken pushed : List Value} {h h' : Sandbox}
    (hr : w.Rewrites taken h pushed h') (output : String) :
    ∃ output', w.Rewrites taken (h.withOutput output) pushed (h'.withOutput output') := by
  cases hr with
  | @print h t => exact ⟨output ++ t, .print⟩
  | parse hp => exact ⟨output, .parse hp⟩
  | parseFails hp => exact ⟨output, .parseFails hp⟩
  | load ha => exact ⟨output, .load (Sandbox.load_withOutput ha)⟩
  | loadFails ha => exact ⟨output, .loadFails (Sandbox.load_withOutput ha)⟩
  | command ha => exact ⟨output, .command (Sandbox.command_withOutput ha)⟩
  | commandFails ha => exact ⟨output, .commandFails (Sandbox.command_withOutput ha)⟩
  | write ha => exact ⟨output, .write (Sandbox.save_withOutput ha)⟩
  | writeFails ha => exact ⟨output, .writeFails (Sandbox.save_withOutput ha)⟩
  | _ => exact ⟨output, by constructor⟩

/-- A word that only rewrites the stack leaves a sandbox as it was, but for its output, unless it
    is `write`. -/
theorem Word.Rewrites.sameButOutput {taken pushed : List Value} {h h' : Sandbox}
    (hr : w.Rewrites taken h pushed h') (hw : w ≠ .write) : SameButOutput h h' := by
  cases hr with
  | print => exact Sandbox.sameButOutput_print _ _
  | load ha | loadFails ha =>
    rw [Sandbox.eq_of_load ha]
    exact .refl _
  | command ha | commandFails ha =>
    rw [Sandbox.eq_of_command ha]
    exact .refl _
  | write | writeFails => exact absurd rfl hw
  | _ => exact .refl _

/-- The state with something else written out by its host. -/
def State.withOutput (output : String) (s : State Sandbox) : State Sandbox :=
  { s with host := s.host.withOutput output }

theorem Word.Effect.withOutput (h : w.Effect s d s') (output : String) :
    ∃ output', w.Effect (s.withOutput output) d (s'.withOutput output') := by
  cases h with
  | @rewrite _ _ _ _ _ s hr hs =>
    obtain ⟨output', hr'⟩ := hr.withOutput output
    exact ⟨output', .rewrite (s := s.withOutput output) hr' hs⟩
  | @printStack s => exact ⟨_, .printStack (s := s.withOutput output)⟩
  | @call _ _ _ _ s hs ha => exact ⟨output, .call (s := s.withOutput output) hs ha⟩
  | @callFails _ _ s hs ha => exact ⟨output, .callFails (s := s.withOutput output) hs ha⟩
  | @select _ _ _ _ s hs ha => exact ⟨output, .select (s := s.withOutput output) hs ha⟩
  | @selectNone _ _ s hs ha => exact ⟨output, .selectNone (s := s.withOutput output) hs ha⟩
  | @define _ _ _ s hs => exact ⟨output, .define (s := s.withOutput output) hs⟩
  | @eval _ _ s hs => exact ⟨output, .eval (s := s.withOutput output) hs⟩
  | @exit s => exact ⟨output, .exit (s := s.withOutput output)⟩

theorem Word.Effect.sameButOutput (h : w.Effect s d s') (hw : w ≠ .write) (hx : w ≠ .exit) :
    SameButOutput s.host s'.host := by
  cases h with
  | rewrite hr => exact hr.sameButOutput hw
  | printStack => exact Sandbox.sameButOutput_print _ _
  | exit => exact absurd rfl hx
  | _ => exact .refl _

namespace State

variable {t : State Sandbox} {e : Fault} {source : String} {log : List (Event Sandbox)}
  {r : Ending Sandbox}

theorem Lockstep.exists_withOutput (h : Lockstep Eq Eq SameButOutput s t) :
    ∃ output, t = s.withOutput output := by
  obtain ⟨output, ho⟩ := h.host
  refine ⟨output, h.eq_with.trans ?_⟩
  rw [← h.stack, ← h.env, ho]
  rfl

theorem lockstep_withOutput (s : State Sandbox) (output : String) :
    Lockstep Eq Eq SameButOutput s (s.withOutput output) :=
  ⟨rfl, rfl, ⟨output, rfl⟩, rfl, rfl, rfl, rfl, rfl⟩

/-- Nothing that a program does depends on what has been written out. -/
theorem congruence_sameButOutput :
    Congruence (H := Sandbox) Eq Eq SameButOutput fun _ => True where
  push v h := congrArg (v :: ·) h
  lookup h _ := by rw [h]
  topTypes_eq h _ := by rw [h.stack]
  effect := by
    intro w d s s' t h _ _ he
    obtain ⟨output, rfl⟩ := h.exists_withOutput
    obtain ⟨output', he'⟩ := he.withOutput output
    exact ⟨_, he', lockstep_withOutput s' output'⟩

/-! ### Runs without a trace -/

/-- An item that is carried out leaves a sandbox as it was, but for its output, unless it is one of
    the words `write` and `exit`. -/
theorem Carries.sameButOutput (h : Carries v s d s')
    (hw : ¬ (v = .atom Word.write.name ∧ Word.write.signature.admits s.stack = true))
    (hx : v ≠ .atom Word.exit.name) : SameButOutput s.host s'.host := by
  cases h with
  | literal => exact .refl _
  | @core name w _ _ _ hn ha he =>
    obtain rfl := Word.name_of_ofName? hn
    refine he.sameButOutput ?_ ?_
    · rintro rfl
      exact hw ⟨rfl, ha⟩
    · rintro rfl
      exact hx rfl
  | bound => exact .refl _

theorem turn_item_host (ht : s.turn = .item v t) : t.host = s.host := by
  obtain ⟨-, _, -, -, rfl⟩ := turn_eq_item.1 ht
  rfl

theorem sameButOutput_dispatch (ht : s.turn = .item v t) (hd : dispatch v t = .ok d s')
    (hw : ¬ (v = .atom Word.write.name ∧ Word.write.signature.admits t.stack = true))
    (hx : v ≠ .atom Word.exit.name) : SameButOutput s.host s'.host :=
  turn_item_host ht ▸ (carries_of_dispatch hd).sameButOutput hw hx

/-- A run without the words `write` and `exit` leaves a sandbox as it was, but for its output. -/
theorem Runs.sameButOutput (h : Runs s log r) (hw : ¬ Executes .write log) (hx : ¬ Exits log) :
    SameButOutput s.host r.state.host := by
  induction h with
  | idle => exact .refl _
  | stop ht =>
    obtain ⟨-, _, _, _, -, -, -, rfl⟩ := turn_eq_stop.1 ht
    exact .refl _
  | fail ht hd =>
    obtain ⟨-, rfl⟩ := fails_of_dispatch hd
    rw [Ending.state, turn_item_host ht]
    exact .refl _
  | step ht hd _ ih =>
    simp only [executes_item, exits_item, not_or] at hw hx
    exact (sameButOutput_dispatch ht hd hw.1 hx.1).trans (ih hw.2 hx.2)
  | refuse ht hd hp _ ih =>
    simp only [executes_item, executes_refusal, exits_item, exits_refusal, not_or] at hw hx
    exact (sameButOutput_dispatch ht hd hw.1 hx.1).trans (ih hw.2 hx.2)
  | nest ht hd hp _ _ ihi ih =>
    simp only [executes_item, executes_append, exits_item, exits_append, not_or] at hw hx
    have hc := sameButOutput_dispatch ht hd hw.1 hx.1
    have hi := ihi hw.2.1 hx.2.1
    have hr := ih hw.2.2 hx.2.2
    rw [Ending.withStatus_host, settle_host] at hr
    exact (hc.trans hi).trans hr

/-- A text that fails at top level, and has not carried out `write` before, leaves everything as
    it was, but for what has been written out. -/
theorem Evaluates.sameButOutput (h : Evaluates source s log (.stopped e s'))
    (hw : ¬ Executes .write log) (hd : s.depth = 0) : Lockstep Eq Eq SameButOutput s s' := by
  have hx := h.not_exits_of_stopped
  have hk := h.kept
  generalize hr : Ending.stopped e s' = r at h
  have hhost : SameButOutput s.host r.state.host ∧ r.state.steps = s.steps := by
    cases h with
    | refuse => exact ⟨.refl _, rfl⟩
    | nest hp hi =>
      rw [settle_host, settle_steps_eq, if_pos hd]
      exact ⟨hi.sameButOutput hw hx, rfl⟩
  subst hr
  exact ⟨hk.stack.symm, hk.env.symm, hhost.1, hk.queue, hk.limits, hk.halted, hk.depth, hhost.2⟩

end State

end Words

/-! ### Sessions -/

namespace Session

open State (Lockstep Evaluates)

/-- A line that has been answered: the state that it was given to, and what it has shown, or
    `none` if it asks to quit. -/
structure Exchange (H : Type) where
  line : String
  before : State H
  shown : Option String

/-- Answer lines in turn, those after a request to quit included: how each of them was answered,
    and the state after the last one. -/
def answerAll {H : Type} [Host H] (fuel : Nat) :
    List String → State H → Option (List (Exchange H) × State H)
  | [], s => some ([], s)
  | line :: lines, s =>
    match answer fuel line s with
    | none => none
    | some (shown, s') =>
      (answerAll fuel lines s').map fun (es, t) => (⟨line, s, shown⟩ :: es, t)

/-- An exchange that is forgotten: the line asks for something else than a program, or its program
    fails and has not carried out `write` before. -/
inductive Forgettable {H : Type} [Host H] : Exchange H → Prop
  | request {e} : (∀ source, Request.ofLine e.line ≠ .program source) → Forgettable e
  | failure {e source fault s log} : Request.ofLine e.line = .program source →
    Evaluates source e.before log (.stopped fault s) → ¬ Executes .write log → Forgettable e

/-- Some of the exchanges of a session, in their order, all others being forgotten. -/
inductive Thinned {H : Type} [Host H] : List (Exchange H) → List (Exchange H) → Prop
  | nil : Thinned [] []
  | keep {es kept} (e : Exchange H) : Thinned es kept → Thinned (e :: es) (e :: kept)
  | forget {es kept} {e : Exchange H} : Forgettable e → Thinned es kept → Thinned (e :: es) kept

section Answers

variable {H : Type} [Host H] {s s' : State H} {line source : String} {lines : List String}
  {shown : Option String} {fuel : Nat}

/-- What is shown of a program that has been run. -/
def endingText : Ending H → String
  | .finished s => stackText s.toMachine
  | .stopped e _ => e.text ++ "\n"

theorem answer_program (hl : Request.ofLine line = .program source) :
    answer fuel line s =
      (s.evaluate fuel source).map fun r => (some (endingText r), r.state) := by
  simp only [answer, hl]
  rcases s.evaluate fuel source with _ | _ | _ <;> rfl

/-- A request that is no program changes nothing, and what it shows is read off the stack and the
    environment. -/
theorem exists_answer_request (hl : ∀ source, Request.ofLine line ≠ .program source)
    (fuel : Nat) :
    ∃ text : List Value → Environment → Option String,
      ∀ s : State H, answer fuel line s = some (text s.stack s.env, s) := by
  cases hr : Request.ofLine line with
  | quit => exact ⟨fun _ _ => none, fun s => by simp only [answer, hr]⟩
  | help =>
    exact ⟨fun stack _ => some (helpText ++ stackText { stack := stack }),
      fun s => by simp only [answer, hr, stackText]⟩
  | definitions =>
    exact ⟨fun stack env => some (definitionsText env ++ stackText { stack := stack }),
      fun s => by simp only [answer, hr, stackText]⟩
  | definition name =>
    exact ⟨fun stack env => some (definitionText env name ++ stackText { stack := stack }),
      fun s => by simp only [answer, hr, stackText]⟩
  | program source => exact absurd hr (hl source)

theorem program_or_request (line : String) :
    (∃ source, Request.ofLine line = .program source) ∨
      ∀ source, Request.ofLine line ≠ .program source := by
  rw [← not_exists]
  exact em _

/-- A line does not take a machine to another depth. -/
theorem answer_depth (h : answer fuel line s = some (shown, s')) : s'.depth = s.depth := by
  rcases program_or_request line with ⟨source, hl⟩ | hl
  · rw [answer_program hl] at h
    obtain ⟨r, hr, he⟩ := Option.map_eq_some_iff.1 h
    cases he
    obtain ⟨log, he⟩ := State.exists_evaluates_of_evaluate hr
    cases he with
    | refuse => rfl
    | nest => exact State.settle_depth
  · obtain ⟨text, ht⟩ := exists_answer_request (H := H) hl fuel
    rw [ht] at h
    cases h
    rfl

theorem answerAll_cons_eq_some {es : List (Exchange H)} {t : State H} :
    answerAll fuel (line :: lines) s = some (es, t) ↔
      ∃ shown s' es', answer fuel line s = some (shown, s') ∧
        answerAll fuel lines s' = some (es', t) ∧ es = ⟨line, s, shown⟩ :: es' := by
  rw [answerAll]
  cases answer fuel line s with
  | none => simp
  | some a =>
    obtain ⟨shown, s'⟩ := a
    constructor
    · intro h
      obtain ⟨⟨es', t'⟩, hr, he⟩ := Option.map_eq_some_iff.1 h
      cases he
      exact ⟨shown, s', es', rfl, hr, rfl⟩
    · rintro ⟨_, _, es', he, hr, rfl⟩
      cases he
      exact Option.map_eq_some_iff.2 ⟨(es', t), hr, rfl⟩

end Answers

variable {s s' t : State Sandbox} {line : String} {lines : List String} {shown : Option String}
  {es kept : List (Exchange Sandbox)} {fuel : Nat}

/-- A line shows the same to machines that differ in what has been written out only. -/
theorem answer_rel (h : Lockstep Eq Eq SameButOutput s t)
    (ha : answer fuel line s = some (shown, s')) :
    ∃ t', answer fuel line t = some (shown, t') ∧ Lockstep Eq Eq SameButOutput s' t' := by
  rcases program_or_request line with ⟨source, hl⟩ | hl
  · rw [answer_program hl] at ha ⊢
    obtain ⟨r, hr, he⟩ := Option.map_eq_some_iff.1 ha
    cases he
    obtain ⟨r', hr', hrel⟩ := Ending.exists_rel_right
      (State.congruence_sameButOutput.simulation.evaluate_rel h (fun _ _ _ => trivial) fuel) hr
    rw [hr']
    cases hrel with
    | finished hi =>
      refine ⟨_, ?_, hi⟩
      simp only [Option.map_some, endingText, stackText, hi.stack]
      rfl
    | stopped hi => exact ⟨_, rfl, hi⟩
  · obtain ⟨text, ht⟩ := exists_answer_request (H := Sandbox) hl fuel
    rw [ht] at ha
    cases ha
    refine ⟨t, ?_, h⟩
    rw [ht, h.stack, h.env]

/-- A line that is forgotten leaves everything as it was, but for what has been written out. -/
theorem Forgettable.sameButOutput (hf : Forgettable ⟨line, s, shown⟩) (hd : s.depth = 0)
    (ha : answer fuel line s = some (shown, s')) : Lockstep Eq Eq SameButOutput s s' := by
  cases hf with
  | request hl =>
    obtain ⟨text, ht⟩ := exists_answer_request (H := Sandbox) hl fuel
    rw [ht] at ha
    cases ha
    exact State.lockstep_withOutput s s.host.output
  | failure hl he hw =>
    rw [answer_program hl] at ha
    obtain ⟨r, hr, hs⟩ := Option.map_eq_some_iff.1 ha
    cases hs
    obtain ⟨log, he'⟩ := State.exists_evaluates_of_evaluate hr
    obtain ⟨-, rfl⟩ := he.unique he'
    exact he.sameButOutput hw hd

/-- Sessions go on side by side if some lines are left out that are forgotten. -/
theorem answerAll_rel {s₂ : State Sandbox} (hs : Lockstep Eq Eq SameButOutput s s₂)
    (hd : s.depth = 0) (ha : answerAll fuel lines s = some (es, t)) (ht : Thinned es kept) :
    ∃ es' t', answerAll fuel (kept.map (·.line)) s₂ = some (es', t') ∧
      es'.map (fun e => (e.line, e.shown)) = kept.map (fun e => (e.line, e.shown)) ∧
      Lockstep Eq Eq SameButOutput t t' := by
  induction lines generalizing s s₂ es kept with
  | nil =>
    cases ha
    cases ht
    exact ⟨[], s₂, rfl, rfl, hs⟩
  | cons line lines ih =>
    obtain ⟨shown, s', es, hl, hr, rfl⟩ := answerAll_cons_eq_some.1 ha
    have hd' : s'.depth = 0 := (answer_depth hl).trans hd
    cases ht with
    | keep _ ht =>
      obtain ⟨s₂', hl₂, hs'⟩ := answer_rel hs hl
      obtain ⟨es₂, t₂, hr₂, he, ht₂⟩ := ih hs' hd' hr ht
      exact ⟨⟨line, s₂, shown⟩ :: es₂, t₂,
        answerAll_cons_eq_some.2 ⟨shown, s₂', es₂, hl₂, hr₂, rfl⟩, congrArg (_ :: ·) he, ht₂⟩
    | forget hf ht =>
      -- The line leaves the first machine as it was, so it is still beside the second one.
      obtain ⟨output, rfl⟩ := (hf.sameButOutput hd hl).exists_withOutput
      obtain ⟨output₂, rfl⟩ := hs.exists_withOutput
      exact ih (State.lockstep_withOutput (s.withOutput output) output₂) hd' hr ht

/-- Lines that are forgotten can be left out of a session at top level: all others show the same
    texts, and the state at the end is the same, but for what has been written out. -/
theorem answerAll_thinned (s : State Sandbox) (hd : s.depth = 0)
    (ha : answerAll fuel lines s = some (es, t)) (ht : Thinned es kept) :
    ∃ es' output, answerAll fuel (kept.map (·.line)) s = some (es', t.withOutput output) ∧
      es'.map (fun e => (e.line, e.shown)) = kept.map (fun e => (e.line, e.shown)) := by
  obtain ⟨es', t', ha', he, ht'⟩ :=
    answerAll_rel (State.lockstep_withOutput s s.host.output) hd ha ht
  obtain ⟨output, rfl⟩ := ht'.exists_withOutput
  exact ⟨es', output, ha', he⟩

/-- A session with a request, and with a line that fails once it has written something out. -/
theorem answerAll_thinned_failure :
    ∃ (s t : State Sandbox) (es es' kept : List (Exchange Sandbox)) (output : String),
      s.depth = 0 ∧ answerAll 5 ["*f", ":a", ":b 'c' print d", ":e"] s = some (es, t) ∧
      t.stack = [.sym "e", .sym "a"] ∧ t.host.output = "c" ∧ Thinned es kept ∧
      kept.map (fun e => (e.line, e.shown)) = [(":a", some ":a\n"), (":e", some ":a :e\n")] ∧
      answerAll 5 [":a", ":e"] s = some (es', t.withOutput output) ∧
      es'.map (fun e => (e.line, e.shown)) = kept.map (fun e => (e.line, e.shown)) := by
  let program : List Value := [.sym "b", .str "c", .atom "print", .atom "d"]
  have hb : Parser.parse Parser.defaultDepth ":b 'c' print d" = .ok program := by
    with_unfolding_all rfl
  have hlb : Request.ofLine ":b 'c' print d" = .program ":b 'c' print d" := by
    with_unfolding_all rfl
  let s : State Sandbox := { host := {} }
  let s₁ : State Sandbox := { s with stack := [.sym "a"] }
  let s₂ : State Sandbox := s₁.withOutput "c"
  let s₃ : State Sandbox := { s₂ with stack := [.sym "e", .sym "a"] }
  have h₁ : answer 5 "*f" s = some (some "No definitions.\n\n", s) := by
    with_unfolding_all rfl
  have h₂ : answer 5 ":a" s = some (some ":a\n", s₁) := by
    with_unfolding_all rfl
  have hp : s₁.programOf ":b 'c' print d" = .ok program :=
    State.programOf_eq_ok.2 ⟨show 0 < 64 by decide, hb⟩
  obtain ⟨log, hf, hw⟩ : ∃ log,
      Evaluates ":b 'c' print d" s₁ log (.stopped (.unknownWord "d") s₂) ∧
        ¬ Executes .write log := by
    have hr : State.Runs (s₁.nested program) _ (.stopped (.unknownWord "d") _) :=
      .step rfl rfl (.step rfl rfl (.step rfl rfl (.fail rfl rfl)))
    exact ⟨_, .nest hp hr, by simp [Word.name]⟩
  have h₃ : answer 5 ":b 'c' print d" s₁ = some (some "No such function: d\n", s₂) := by
    rw [answer_program hlb, State.evaluate_of_ok hp]
    rfl
  have h₄ : answer 5 ":e" s₂ = some (some ":a :e\n", s₃) := by
    with_unfolding_all rfl
  let e₁ : Exchange Sandbox := ⟨"*f", s, some "No definitions.\n\n"⟩
  let e₂ : Exchange Sandbox := ⟨":a", s, some ":a\n"⟩
  let e₃ : Exchange Sandbox := ⟨":b 'c' print d", s₁, some "No such function: d\n"⟩
  let e₄ : Exchange Sandbox := ⟨":e", s₂, some ":a :e\n"⟩
  have ha : answerAll 5 ["*f", ":a", ":b 'c' print d", ":e"] s = some ([e₁, e₂, e₃, e₄], s₃) :=
    answerAll_cons_eq_some.2 ⟨_, _, _, h₁, answerAll_cons_eq_some.2 ⟨_, _, _, h₂,
      answerAll_cons_eq_some.2 ⟨_, _, _, h₃, answerAll_cons_eq_some.2 ⟨_, _, _, h₄, rfl, rfl⟩,
        rfl⟩, rfl⟩, rfl⟩
  have hq : ∀ source, Request.ofLine "*f" ≠ .program source := by
    with_unfolding_all nofun
  have ht : Thinned [e₁, e₂, e₃, e₄] [e₂, e₄] :=
    .forget (.request hq) (.keep _ (.forget (.failure hlb hf hw) (.keep _ .nil)))
  obtain ⟨es', output, ha', he⟩ := answerAll_thinned s rfl ha ht
  exact ⟨s, s₃, _, es', _, output, rfl, ha, rfl, rfl, ht, rfl, ha', he⟩

end Session

end Catena
