import Catena.Host.Sandbox
import Catena.Proofs.Steps

/-!
# Faults of runs

A core word is carried out only on a stack that its signature admits, and there it cannot
fail any more: the guards inside the words are never reached (`signature_adequate`). So
only few causes are left that can stop a run (`Fault.StopsRun`), or a text that is run as
a transaction (`Fault.StopsText`).

An item that fails has changed nothing by then: a run that is stopped ends in the state
before that item, less the item itself (`run_stopped_unchanged`).
-/

namespace Catena

/-- The causes that can stop a run. -/
inductive Fault.StopsRun : Fault → Prop
  | mismatch {w expected actual} : StopsRun (.mismatch w expected actual)
  | unknownWord {name} : StopsRun (.unknownWord name)
  | stepLimit {limit} : StopsRun (.stepLimit limit)

/-- The causes that can make a text fail that is run as a transaction. -/
inductive Fault.StopsText : Fault → Prop
  | run {e} : StopsRun e → StopsText e
  | parse {error} : StopsText (.parse error)
  | depthLimit {limit} : StopsText (.depthLimit limit)

namespace State

variable {H : Type} [Host H] {s s' t : State H} {v : Value} {e : Fault} {source : String}
  {log : List (Event H)} {fuel : Nat} {w : Word}

/-! ### Causes -/

omit [Host H] in
theorem Fails.stopsRun (h : Fails v s e) : e.StopsRun := by
  cases h with
  | mismatch => exact .mismatch
  | unknownWord => exact .unknownWord

theorem Runs.stopsRun (h : Runs s log (.stopped e s')) : e.StopsRun := by
  obtain ⟨m, -, ht | ⟨v, t, -, hd⟩⟩ := h.exists_last_turn
  · obtain ⟨-, _, _, _, -, -, rfl, -⟩ := turn_eq_stop.1 ht
    exact .stepLimit
  · exact (fails_of_dispatch hd).1.stopsRun

theorem Evaluates.stopsText (h : Evaluates source s log (.stopped e s')) : e.StopsText := by
  generalize hr : Ending.stopped e s' = r at h
  cases h with
  | refuse hp =>
    cases hr
    obtain ⟨-, rfl⟩ | ⟨-, error, -, rfl⟩ := programOf_eq_error.1 hp
    · exact .depthLimit
    · exact .parse
  | @nest _ inner _ _ hi =>
    cases inner with
    | finished t => cases hr
    | stopped e t =>
      cases hr
      exact .run hi.stopsRun

/-- A core word on a stack that its signature admits is carried out. It is `eval` if there
    is no answer, and the text that it runs has not ended. -/
theorem apply_of_admits (h : w.signature.admits s.stack = true) (fuel : Nat) :
    (∃ s', apply fuel w s = some (.finished s')) ∨
      w = .eval ∧ ∃ source rest, s.stack = .str source :: rest ∧
        evaluate fuel source { s with stack := rest } = none := by
  -- The action gives a result. What is left is to meet its demand, which is to run a text
  -- for the word `eval` and nothing for the others.
  obtain ⟨d, s', he⟩ := Word.exists_effect h
  cases d with
  | proceed =>
    refine .inl ⟨s', ?_⟩
    rw [apply, he.action_eq, conclude]
  | evaluate source =>
    have ha : apply fuel w s = (evaluate fuel source s').map fun r => .finished r.withStatus := by
      rw [apply, he.action_eq, conclude, evaluate]
    cases hr : evaluate fuel source s' with
    | some r =>
      rw [hr] at ha
      exact .inl ⟨_, ha⟩
    | none =>
      cases he with
      | eval hs => exact .inr ⟨rfl, source, _, hs, hr⟩

/-- Signatures are adequate. No guard inside a core word is reached on a stack that its
    signature admits; and what stops a run, or a text that is run as a transaction, is
    never one of these guards. -/
theorem signature_adequate :
    (∀ (w : Word) (s : State H), w.signature.admits s.stack = true →
      (∃ d s', w.action s = .ok d s') ∧
        ∀ fuel, (∃ s', apply fuel w s = some (.finished s')) ∨
          w = .eval ∧ ∃ source rest, s.stack = .str source :: rest ∧
            evaluate fuel source { s with stack := rest } = none) ∧
      (∀ (s s' : State H) fuel e, run fuel s = some (.stopped e s') → e.StopsRun) ∧
      ∀ (s s' : State H) fuel source e, evaluate fuel source s = some (.stopped e s') →
        e.StopsText := by
  refine ⟨fun w s h => ⟨?_, apply_of_admits h⟩, fun s s' fuel e h => ?_,
    fun s s' fuel source e h => ?_⟩
  · obtain ⟨d, s', he⟩ := Word.exists_effect h
    exact ⟨d, s', he.action_eq⟩
  · obtain ⟨log, hr⟩ := exists_runs_of_proceed h
    exact hr.stopsRun
  · obtain ⟨log, hr⟩ := exists_evaluates_of_evaluate h
    exact hr.stopsText

/-- The word `>>` on a quote with a body is carried out; on a symbol it stops the run. -/
theorem signature_adequate_takeBody :
    (∃ s' : State Sandbox, apply 0 .takeBody { stack := [.quote [] [.sym "a"]], host := {} } =
        some (.finished s')) ∧
      ∃ (e : Fault) (s' : State Sandbox),
        run 2 { queue := [.sym "a", .atom ">>"], host := {} } = some (.stopped e s') ∧
          e.StopsRun := by
  obtain ⟨ha, hr, -⟩ := signature_adequate (H := Sandbox)
  constructor
  · obtain ⟨s', h⟩ | ⟨h, -⟩ :=
      (ha .takeBody { stack := [.quote [] [.sym "a"]], host := {} } rfl).2 0
    · exact ⟨s', h⟩
    · cases h
  · exact ⟨_, _, rfl, hr { queue := [.sym "a", .atom ">>"], host := {} } _ 2 _ rfl⟩

/-! ### Failing items -/

/-- A run that is stopped ends in the state before the item that stops it, less that item.
    A fault of a word tells its signature and the types on the stack left behind, which do
    not fit; a fault of a name tells one that is neither a core word nor bound. -/
theorem run_stopped_unchanged (h : run fuel s = some (.stopped e s')) :
    ∃ (m : State H) (item : Value) (rest : List Value),
      Relation.ReflTransGen Step s.recount m ∧ m.queue = item :: rest ∧
      s'.stack = m.stack ∧ s'.env = m.env ∧ s'.halted = m.halted ∧ s'.host = m.host ∧
      s'.queue = rest ∧
      (∀ w expected actual, e = .mismatch w expected actual →
        item = .atom w.name ∧ Word.ofName? w.name = some w ∧ expected = w.signature ∧
        actual = ((s'.stack.take (min w.signature.length s'.stack.length)).map Value.ty).reverse ∧
        ¬ List.Forall₂ (fun required t => required.accepts t = true) expected actual) ∧
      ∀ name, e = .unknownWord name →
        item = .atom name ∧ Word.ofName? name = none ∧ s'.env.get? name = none := by
  obtain ⟨log, hr⟩ := exists_runs_of_proceed h
  obtain ⟨m, hm, ht | ⟨v, t, ht, hd⟩⟩ := hr.exists_last_turn
  -- Beyond the limit the item is not looked at, so that the fault is neither of the two.
  · obtain ⟨-, v, rest, limit, hq, -, rfl, rfl⟩ := turn_eq_stop.1 ht
    refine ⟨m, v, rest, hm, hq, rfl, rfl, rfl, rfl, rfl, ?_, ?_⟩
    · intro w expected actual he
      cases he
    · intro name he
      cases he
  · obtain ⟨-, rest, hq, -, rfl⟩ := turn_eq_item.1 ht
    obtain ⟨hf, rfl⟩ := fails_of_dispatch hd
    refine ⟨m, v, rest, hm, hq, rfl, rfl, rfl, rfl, rfl, ?_, ?_⟩
    · intro w expected actual he
      subst he
      cases hf with
      | mismatch hw ha =>
        obtain rfl := Word.name_of_ofName? hw
        refine ⟨rfl, hw, rfl, ?_, ?_⟩
        · rw [topTypes, List.take_eq_take_min]
        · intro hfit
          rw [Signature.admits_iff_forall₂.2 hfit] at ha
          cases ha
    · intro name he
      subst he
      cases hf with
      | unknownWord hw hn => exact ⟨rfl, hw, hn⟩

/-- The word `+` after a symbol stops a run, and only that word is gone. -/
theorem run_stopped_unchanged_add :
    ∃ s m s' : State Sandbox, s.queue = [.sym "a", .atom "+", .sym "b"] ∧
      run 3 s = some (.stopped (.mismatch .add [.num, .num] [.sym]) s') ∧
      Relation.ReflTransGen Step s.recount m ∧ m.queue = [.atom "+", .sym "b"] ∧
      s'.queue = [.sym "b"] ∧ s'.stack = m.stack ∧
      ¬ List.Forall₂ (fun (required t : Ty) => required.accepts t = true) [.num, .num] [.sym] := by
  have h : run (H := Sandbox) 3 { queue := [.sym "a", .atom "+", .sym "b"], host := {} } =
      some (.stopped (.mismatch .add [.num, .num] [.sym]) _) := rfl
  obtain ⟨m, item, rest, hm, hq, hs, -, -, -, hr, hw, -⟩ := run_stopped_unchanged h
  obtain ⟨rfl, -, -, -, hn⟩ := hw _ _ _ rfl
  cases hr
  exact ⟨_, m, _, rfl, h, hm, hq, rfl, hs, hn⟩

end State

end Catena
