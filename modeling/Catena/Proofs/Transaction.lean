import Catena.Host.Sandbox
import Catena.Proofs.Halting

/-!
# Transactions

A text is run on a machine of its own, on the stack and the environment of the machine that
runs it. Whatever happens in that run, at whatever depth, the outer machine sees one of two
things: all of it, if the run succeeds, or none of it, if it fails (`State.Kept`). Its queue
it gets back in both cases, unless the program has ended. The host is outside of this: what
has been done to it stays.

* `State.evaluate_transaction`: the two outcomes of a text, and those of the word `eval`.
-/

namespace Catena.State

variable {H : Type}

/-- The machine is as it was, but for its count of items. -/
structure Kept (s s' : State H) : Prop where
  stack : s'.stack = s.stack
  env : s'.env = s.env
  queue : s'.queue = s.queue
  halted : s'.halted = s.halted
  limits : s'.limits = s.limits
  depth : s'.depth = s.depth

theorem Kept.refl (s : State H) : Kept s s := ⟨rfl, rfl, rfl, rfl, rfl, rfl⟩

theorem kept_rollback (s inner : State H) : Kept s (s.rollback inner) :=
  ⟨rfl, rfl, rfl, rfl, rfl, rfl⟩

variable [Host H] {s s' : State H} {e : Fault} {source : String} {log : List (Event H)}
  {fuel : Nat}

/-- A text that fails changes nothing, wherever the fault is. -/
theorem Evaluates.kept (h : Evaluates source s log (.stopped e s')) : Kept s s' := by
  generalize hr : Ending.stopped e s' = r at h
  cases h with
  | refuse hp =>
    cases hr
    exact .refl s
  | @nest _ inner _ _ hi =>
    cases inner with
    | finished t => cases hr
    | stopped e t =>
      cases hr
      exact kept_rollback s t

/-- A text that succeeds leaves what the run of its items has reached. -/
theorem exists_commit_of_evaluate (h : evaluate fuel source s = some (.finished s')) :
    ∃ program inner log, Parser.parse Parser.defaultDepth source = .ok program ∧
      proceed fuel (s.nested program) = some (.finished inner) ∧
      Runs (s.nested program) log (.finished inner) ∧
      Evaluates source s log (.finished s') ∧ s' = s.commit inner := by
  cases hp : s.programOf source with
  | error e =>
    rw [evaluate_of_error hp] at h
    cases h
  | ok program =>
    rw [evaluate_of_ok hp] at h
    obtain ⟨r, hf, hs⟩ := Option.map_eq_some_iff.1 h
    obtain ⟨log, hr⟩ := exists_runs_of_proceed hf
    cases r with
    | stopped e t => cases hs
    | finished inner =>
      cases hs
      exact ⟨program, inner, log, (programOf_eq_ok.1 hp).2, hf, hr, .nest hp hr, rfl⟩

/-- A run in which the program does not end has an empty queue when it succeeds. -/
theorem Runs.not_halted_of_not_exits (h : Runs s log (.finished s')) (hs : s.halted = false)
    (hx : ¬ Exits log) : s'.halted = false ∧ s'.queue = [] := by
  -- A run that succeeds has an empty queue or is halted, and only `exit` halts.
  have hh : s'.halted = false := by
    rw [← Bool.not_eq_true]
    intro hh
    rcases h.halted_iff.1 hh with hn | hx'
    · rw [hs] at hn
      cases hn
    · exact hx hx'
  rcases turn_eq_idle.1 h.steps_finished.2 with hn | hq
  · rw [hh] at hn
    cases hn
  · exact ⟨hh, hq⟩

/-- The word `eval` runs the text on top of the stack, and pushes whether it succeeded. -/
theorem carryOut_eval {base : List Value} (hs : s.stack = .str source :: base) :
    carryOut fuel (.atom Word.eval.name) s =
      (evaluate fuel source { s with stack := base }).map fun r => .finished r.withStatus := by
  -- The signature asks for a string on top, so the word is carried out and not refused.
  have ha : Word.eval.signature.admits s.stack = true :=
    Signature.admits_string.2 ⟨source, base, hs⟩
  apply carryOut_of_evaluate
  rw [dispatch_core (Word.ofName?_name .eval) ha]
  exact (Word.Effect.eval hs).action_eq

/-- A text is a transaction at every depth. If it fails, the machine is as it was. If it
    succeeds, and the program has not ended, the stack and the environment are those that
    its items reach on an empty queue, one level deeper. The word `eval` never fails on a
    text: it leaves the queue, unless the program has ended, and either what the items have
    reached or what was there before, with a symbol that tells which. -/
theorem evaluate_transaction (source : String) (s : State H) (fuel : Nat) :
    (∀ e s', evaluate fuel source s = some (.stopped e s') → Kept s s') ∧
      (∀ s', evaluate fuel source s = some (.finished s') →
        ∃ log, Evaluates source s log (.finished s') ∧
          (¬ Exits log → ∃ program inner,
            Parser.parse Parser.defaultDepth source = .ok program ∧
            proceed fuel (s.nested program) = some (.finished inner) ∧ inner.queue = [] ∧
            s'.stack = inner.stack ∧ s'.env = inner.env ∧ s'.queue = s.queue ∧
            s'.halted = s.halted)) ∧
      ∀ base, s.stack = .str source :: base →
        carryOut fuel (.atom Word.eval.name) s =
            (evaluate fuel source { s with stack := base }).map
              (fun r => .finished r.withStatus) ∧
          ∀ r, evaluate fuel source { s with stack := base } = some r →
            ∃ log, Evaluates source { s with stack := base } log r ∧
              (¬ Exits log → r.withStatus.queue = s.queue) ∧
              ((∃ t program inner, r = .finished t ∧
                  Parser.parse Parser.defaultDepth source = .ok program ∧
                  proceed fuel (State.nested { s with stack := base } program) =
                    some (.finished inner) ∧
                  r.withStatus.stack = .ok :: inner.stack ∧ r.withStatus.env = inner.env) ∨
                ∃ e t, r = .stopped e t ∧ r.withStatus.stack = .notOk :: base ∧
                  r.withStatus.env = s.env) := by
  refine ⟨fun e s' h => ?_, fun s' h => ?_, fun base hs => ⟨carryOut_eval hs, fun r h => ?_⟩⟩
  · obtain ⟨log, hr⟩ := exists_evaluates_of_evaluate h
    exact hr.kept
  · obtain ⟨program, inner, log, hp, hf, hr, he, rfl⟩ := exists_commit_of_evaluate h
    refine ⟨log, he, fun hx => ?_⟩
    obtain ⟨hh, hq⟩ := hr.not_halted_of_not_exits rfl hx
    refine ⟨program, inner, hp, hf, hq, commit_stack, commit_env,
      commit_queue hh, ?_⟩
    rw [commit_halted, hh, Bool.false_or]
  · cases r with
    | finished t =>
      obtain ⟨program, inner, log, hp, hf, hr, he, rfl⟩ := exists_commit_of_evaluate h
      refine ⟨log, he, fun hx => ?_, .inl ⟨_, program, inner, rfl, hp, hf, ?_, ?_⟩⟩
      · exact commit_queue (hr.not_halted_of_not_exits rfl hx).1
      · exact congrArg (Value.ok :: ·) (commit_stack)
      · exact commit_env
    | stopped e t =>
      obtain ⟨log, hr⟩ := exists_evaluates_of_evaluate h
      have hk := hr.kept
      exact ⟨log, hr, fun _ => hk.queue,
        .inr ⟨e, t, rfl, congrArg (Value.notOk :: ·) hk.stack, hk.env⟩⟩

/-- A text that pushes a symbol before it fails, run by the word `eval` below top level. -/
theorem evaluate_transaction_unknown :
    ∃ s s' t : State Sandbox, s.stack = [.str ":a b"] ∧ s.depth = 1 ∧
      evaluate 3 ":a b" s = some (.stopped (.unknownWord "b") s') ∧ Kept s s' ∧
      carryOut 3 (.atom Word.eval.name) s = some (.finished t) ∧ t.stack = [.notOk] ∧
      t.env = s.env := by
  have hp : Parser.parse Parser.defaultDepth ":a b" = .ok [.sym "a", .atom "b"] := by
    with_unfolding_all rfl
  have hs {stack : List Value} :
      programOf (H := Sandbox) ":a b" { stack := stack, depth := 1, host := {} } =
        .ok [.sym "a", .atom "b"] :=
    programOf_eq_ok.2 ⟨show 1 < 64 by decide, hp⟩
  have h : evaluate (H := Sandbox) 3 ":a b" { stack := [.str ":a b"], depth := 1, host := {} } =
      some (.stopped (.unknownWord "b") _) := (evaluate_of_ok hs).trans rfl
  have h' : evaluate (H := Sandbox) 3 ":a b" { stack := [], depth := 1, host := {} } =
      some (.stopped (.unknownWord "b") _) := (evaluate_of_ok hs).trans rfl
  obtain ⟨hf, -, he⟩ := evaluate_transaction (H := Sandbox) ":a b"
    { stack := [.str ":a b"], depth := 1, host := {} } 3
  obtain ⟨hc, hr⟩ := he [] rfl
  obtain ⟨log, -, -, ⟨t, _, _, hn, -⟩ | ⟨e, t, -, hst, hen⟩⟩ := hr _ h'
  · cases hn
  · rw [h'] at hc
    exact ⟨_, _, _, rfl, rfl, h, hf _ _ h, hc, hst, hen⟩

end Catena.State
