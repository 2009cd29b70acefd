import Catena.Machine.Run
import Mathlib.Order.Nat

/-!
# Runs as derivations

`State.proceed` computes the ending of a run, given enough fuel. Here a run is a
derivation instead (`State.Runs`), which has no fuel in it and records what happens on the
way: the *log* of a run has an event for every item that is carried out, and for every
refusal to go on, in the order in which they happen and at all levels of nesting. Nested
runs that are rolled back are in the log as well.

Most facts about runs are proved by induction on derivations, and they are facts about the
computed runs since the two agree:

* `State.Runs.proceed_eq`: with more fuel than it carries out items, a run is computed;
* `State.exists_runs_of_proceed`: every computed run has a derivation;
* `State.Runs.unique`: a state has one run at most, with one log.
-/

namespace Catena

variable {H : Type}

/-- What happens in a run, at any level of nesting. -/
inductive Event (H : Type) where
  /-- An item is carried out, or fails: the state is the one just before, in which the item
      is off the queue already. -/
  | item (v : Value) (s : State H)
  /-- A machine refuses an item that is beyond the limit, or a text that it is to run. -/
  | refusal (fault : Fault) (s : State H)

/-- Whether an item is carried out. -/
def Event.isItem : Event H → Bool
  | item _ _ => true
  | refusal _ _ => false

/-- The number of items carried out in a run, at all levels of nesting. -/
def itemCount (log : List (Event H)) : Nat := log.countP Event.isItem

@[simp]
theorem itemCount_nil : itemCount ([] : List (Event H)) = 0 := rfl

@[simp]
theorem itemCount_item (v : Value) (s : State H) (log : List (Event H)) :
    itemCount (.item v s :: log) = itemCount log + 1 :=
  List.countP_cons_of_pos rfl

@[simp]
theorem itemCount_refusal (e : Fault) (s : State H) (log : List (Event H)) :
    itemCount (.refusal e s :: log) = itemCount log :=
  List.countP_cons_of_neg Bool.false_ne_true

@[simp]
theorem itemCount_append (log log' : List (Event H)) :
    itemCount (log ++ log') = itemCount log + itemCount log' :=
  List.countP_append

namespace State

/-! ### Turns -/

section Turns

variable {s t : State H} {v : Value} {e : Fault}

/-- The limit is reached once as many items have been counted. -/
theorem reachedLimit?_eq_some {m : Machine} {limit : Nat} :
    m.reachedLimit? = some limit ↔ m.limits.steps = some limit ∧ limit ≤ m.steps := by
  simp [Machine.reachedLimit?, Option.filter_eq_some_iff]

/-- A machine is idle if it has been halted or has no item left. -/
theorem turn_eq_idle : s.turn = .idle ↔ s.halted = true ∨ s.queue = [] := by
  unfold turn
  grind

/-- A machine stops in front of an item that is beyond its limit. The item is lost. -/
theorem turn_eq_stop :
    s.turn = .stop e t ↔
      s.halted = false ∧ ∃ v rest limit, s.queue = v :: rest ∧ s.reachedLimit? = some limit ∧
        e = .stepLimit limit ∧ t = { s with queue := rest } := by
  unfold turn
  grind

/-- An item that comes next is taken off the queue, and is counted. -/
theorem turn_eq_item :
    s.turn = .item v t ↔
      s.halted = false ∧ ∃ rest, s.queue = v :: rest ∧ s.reachedLimit? = none ∧
        t = { s with queue := rest, steps := s.steps + 1 } := by
  unfold turn
  grind

/-- A machine that is not too deep runs what it reads. -/
theorem programOf_of_lt {source : String} (hd : s.depth < s.limits.depth) :
    s.programOf source = (Parser.parse Parser.defaultDepth source).mapError .parse :=
  if_neg (Nat.not_le.2 hd)

/-- A machine that is too deep does not even look at the text. -/
theorem programOf_of_le {source : String} (hd : s.limits.depth ≤ s.depth) :
    s.programOf source = .error (.depthLimit s.limits.depth) :=
  if_pos hd

/-- A text is run if the machine is not too deep and the text can be read. -/
theorem programOf_eq_ok {source : String} {program : List Value} :
    s.programOf source = .ok program ↔
      s.depth < s.limits.depth ∧
        Parser.parse Parser.defaultDepth source = .ok program := by
  rcases Nat.lt_or_ge s.depth s.limits.depth with hd | hd
  · rw [programOf_of_lt hd, and_iff_right hd]
    cases Parser.parse Parser.defaultDepth source with
    | ok items =>
      constructor
      · intro h
        cases h
        rfl
      · intro h
        cases h
        rfl
    | error error => exact ⟨nofun, nofun⟩
  · rw [programOf_of_le hd]
    exact ⟨nofun, fun h => absurd h.1 (Nat.not_lt.2 hd)⟩

/-- A text is refused because of the depth, or because it cannot be read. -/
theorem programOf_eq_error {source : String} :
    s.programOf source = .error e ↔
      s.limits.depth ≤ s.depth ∧ e = .depthLimit s.limits.depth ∨
        s.depth < s.limits.depth ∧
          ∃ error, Parser.parse Parser.defaultDepth source = .error error ∧ e = .parse error := by
  rcases Nat.lt_or_ge s.depth s.limits.depth with hd | hd
  · rw [programOf_of_lt hd, or_iff_right fun h => Nat.not_le.2 hd h.1, and_iff_right hd]
    cases Parser.parse Parser.defaultDepth source with
    | ok items => exact ⟨nofun, nofun⟩
    | error error =>
      refine ⟨fun h => ⟨error, rfl, (Except.error.inj h).symm⟩, ?_⟩
      rintro ⟨_, h, rfl⟩
      cases h
      rfl
  · rw [programOf_of_le hd, or_iff_left fun h => Nat.not_lt.2 hd h.1, and_iff_right hd,
      Except.error.injEq, eq_comm]

end Turns

/-! ### Derivations -/

/-- A run from a state, with its log and its ending. -/
inductive Runs [Host H] : State H → List (Event H) → Ending H → Prop
  | idle {s} : s.turn = .idle → Runs s [] (.finished s)
  | stop {s t e} : s.turn = .stop e t → Runs s [.refusal e t] (.stopped e t)
  | fail {s t u v e} : s.turn = .item v t → dispatch v t = .error e u →
    Runs s [.item v t] (.stopped e u)
  | step {s t u v log r} : s.turn = .item v t → dispatch v t = .ok .proceed u →
    Runs u log r → Runs s (.item v t :: log) r
  | refuse {s t u v source e log r} : s.turn = .item v t →
    dispatch v t = .ok (.evaluate source) u → u.programOf source = .error e →
    Runs (Ending.stopped e u).withStatus log r →
    Runs s (.item v t :: .refusal e u :: log) r
  | nest {s t u v source program inner log log' r} : s.turn = .item v t →
    dispatch v t = .ok (.evaluate source) u → u.programOf source = .ok program →
    Runs (u.nested program) log inner → Runs (u.settle inner).withStatus log' r →
    Runs s (.item v t :: (log ++ log')) r

/-- The run of a text as a transaction, with its log and its ending. -/
inductive Evaluates [Host H] (source : String) (s : State H) : List (Event H) → Ending H → Prop
  | refuse {e} : s.programOf source = .error e → Evaluates source s [.refusal e s] (.stopped e s)
  | nest {program inner log} : s.programOf source = .ok program →
    Runs (s.nested program) log inner → Evaluates source s log (s.settle inner)

/-- The state once a demand is met, with the log of the run that this takes. -/
inductive Meets [Host H] : Demand → State H → List (Event H) → State H → Prop
  | proceed {s} : Meets .proceed s [] s
  | evaluate {source s log r} : Evaluates source s log r →
    Meets (.evaluate source) s log r.withStatus

variable [Host H] {s t u s' : State H} {v : Value} {d : Demand} {e : Fault} {source : String}
  {program : List Value} {log log' : List (Event H)} {r r' : Ending H} {fuel : Nat}

/-- The steps of a run, whatever their items demand. -/
theorem Runs.meet (ht : s.turn = .item v t) (hd : dispatch v t = .ok d u)
    (hm : Meets d u log s') (hr : Runs s' log' r) : Runs s (.item v t :: (log ++ log')) r := by
  cases hm with
  | proceed => exact .step ht hd hr
  | evaluate he =>
    cases he with
    | refuse hp => exact .refuse ht hd hp hr
    | nest hp hi => exact .nest ht hd hp hi hr

/-- The item that comes next and what becomes of it are determined. -/
theorem item_unique {v' : Value} {t' u' : State H} {d' : Demand} (ht : s.turn = .item v t)
    (ht' : s.turn = .item v' t') (hd : dispatch v t = .ok d u)
    (hd' : dispatch v' t' = .ok d' u') : v = v' ∧ t = t' ∧ d = d' ∧ u = u' := by
  rw [ht] at ht'
  cases ht'
  rw [hd] at hd'
  cases hd'
  exact ⟨rfl, rfl, rfl, rfl⟩

/-- A state has one run at most, with one log. -/
theorem Runs.unique (h : Runs s log r) (h' : Runs s log' r') : log = log' ∧ r = r' := by
  -- The turn, what becomes of its item, and the program of a text are computed from the
  -- state, so the second run takes the same case as the first.
  induction h generalizing log' r' with
  | idle ht => cases h' <;> simp_all
  | stop ht => cases h' <;> simp_all
  | fail ht hd => cases h' <;> simp_all
  | step ht hd _ ih =>
    cases h' with
    | step ht' hd' hr =>
      obtain ⟨rfl, rfl, -, rfl⟩ := item_unique ht ht' hd hd'
      obtain ⟨rfl, rfl⟩ := ih hr
      exact ⟨rfl, rfl⟩
    | _ => simp_all
  | refuse ht hd hp _ ih =>
    cases h' with
    | refuse ht' hd' hp' hr =>
      obtain ⟨rfl, rfl, he, rfl⟩ := item_unique ht ht' hd hd'
      cases he
      rw [hp] at hp'
      cases hp'
      obtain ⟨rfl, rfl⟩ := ih hr
      exact ⟨rfl, rfl⟩
    | _ => simp_all
  | nest ht hd hp _ _ ihi ih =>
    cases h' with
    | nest ht' hd' hp' hi hr =>
      obtain ⟨rfl, rfl, he, rfl⟩ := item_unique ht ht' hd hd'
      cases he
      rw [hp] at hp'
      cases hp'
      obtain ⟨rfl, rfl⟩ := ihi hi
      obtain ⟨rfl, rfl⟩ := ih hr
      exact ⟨rfl, rfl⟩
    | _ => simp_all

/-- A text has one run at most as a transaction, with one log. -/
theorem Evaluates.unique (h : Evaluates source s log r) (h' : Evaluates source s log' r') :
    log = log' ∧ r = r' := by
  cases h with
  | refuse hp =>
    cases h' with
    | refuse hp' =>
      rw [hp] at hp'
      cases hp'
      exact ⟨rfl, rfl⟩
    | nest hp' => simp_all
  | nest hp hr =>
    cases h' with
    | refuse hp' => simp_all
    | nest hp' hr' =>
      rw [hp] at hp'
      cases hp'
      obtain ⟨rfl, rfl⟩ := hr.unique hr'
      exact ⟨rfl, rfl⟩

/-! ### Derivations and computed runs -/

/-- A text that is refused changes nothing. -/
theorem evaluate_of_error (hp : s.programOf source = .error e) :
    evaluate fuel source s = some (.stopped e s) := by
  rw [evaluate, evaluateWith, hp]

/-- A text is run on a nested machine, whose ending is settled. -/
theorem evaluate_of_ok (hp : s.programOf source = .ok program) :
    evaluate fuel source s = (proceed fuel (s.nested program)).map s.settle := by
  rw [evaluate, evaluateWith, hp]

theorem carryOut_of_error (hd : dispatch v t = .error e u) :
    carryOut fuel v t = some (.stopped e u) := by
  rw [carryOut, hd, conclude]

theorem carryOut_of_proceed (hd : dispatch v t = .ok .proceed u) :
    carryOut fuel v t = some (.finished u) := by
  rw [carryOut, hd, conclude]

/-- An item that demands a text to be run never fails: it leaves a symbol for the ending. -/
theorem carryOut_of_evaluate (hd : dispatch v t = .ok (.evaluate source) u) :
    carryOut fuel v t = (evaluate fuel source u).map fun r => .finished r.withStatus := by
  rw [carryOut, hd, conclude, evaluate]

theorem proceed_of_idle (ht : s.turn = .idle) : proceed (fuel + 1) s = some (.finished s) := by
  rw [proceed, ht]

theorem proceed_of_stop (ht : s.turn = .stop e t) :
    proceed (fuel + 1) s = some (.stopped e t) := by
  rw [proceed, ht]

/-- One unit of fuel goes into the item, which has all of the rest for itself, as have the items
    behind it. -/
theorem proceed_of_item (ht : s.turn = .item v t) :
    proceed (fuel + 1) s =
      match carryOut fuel v t with
      | none => none
      | some (.stopped e u) => some (.stopped e u)
      | some (.finished u) => proceed fuel u := by
  rw [proceed, ht]
  rfl

/-- With more fuel than it carries out items, a run is computed. -/
theorem Runs.proceed_eq (h : Runs s log r) (hf : itemCount log < fuel) :
    proceed fuel s = some r := by
  -- One unit of fuel goes into the turn. The nested run and what comes after it both have
  -- all of the rest, which is enough since each of them carries out only some of the items.
  obtain ⟨fuel, rfl⟩ := Nat.exists_eq_add_one_of_ne_zero (Nat.ne_zero_of_lt hf)
  induction h generalizing fuel with
  | idle ht => exact proceed_of_idle ht
  | stop ht => exact proceed_of_stop ht
  | fail ht hd => rw [proceed_of_item ht, carryOut_of_error hd]
  | step ht hd _ ih =>
    rw [itemCount_item] at hf
    obtain ⟨fuel, rfl⟩ := Nat.exists_eq_add_one_of_ne_zero (n := fuel) (by omega)
    rw [proceed_of_item ht, carryOut_of_proceed hd]
    exact ih fuel (by omega)
  | refuse ht hd hp _ ih =>
    rw [itemCount_item, itemCount_refusal] at hf
    obtain ⟨fuel, rfl⟩ := Nat.exists_eq_add_one_of_ne_zero (n := fuel) (by omega)
    rw [proceed_of_item ht, carryOut_of_evaluate hd, evaluate_of_error hp]
    exact ih fuel (by omega)
  | nest ht hd hp _ _ ihi ih =>
    rw [itemCount_item, itemCount_append] at hf
    obtain ⟨fuel, rfl⟩ := Nat.exists_eq_add_one_of_ne_zero (n := fuel) (by omega)
    rw [proceed_of_item ht, carryOut_of_evaluate hd, evaluate_of_ok hp, ihi fuel (by omega)]
    exact ih fuel (by omega)

/-- With more fuel than it carries out items, a transaction is computed. -/
theorem Evaluates.evaluate_eq (h : Evaluates source s log r) (hf : itemCount log < fuel) :
    evaluate fuel source s = some r := by
  cases h with
  | refuse hp => exact evaluate_of_error hp
  | nest hp hr => rw [evaluate_of_ok hp, hr.proceed_eq hf, Option.map_some]

/-- Every computed run has a derivation. -/
theorem exists_runs_of_proceed (h : proceed fuel s = some r) : ∃ log, Runs s log r := by
  induction fuel generalizing s r with
  | zero => exact absurd h (by simp [proceed])
  | succ fuel ih =>
    cases ht : s.turn with
    | idle =>
      rw [proceed_of_idle ht] at h
      cases h
      exact ⟨_, .idle ht⟩
    | stop e t =>
      rw [proceed_of_stop ht] at h
      cases h
      exact ⟨_, .stop ht⟩
    | item v t =>
      rw [proceed_of_item ht] at h
      cases hd : dispatch v t with
      | error e u =>
        rw [carryOut_of_error hd] at h
        cases h
        exact ⟨_, .fail ht hd⟩
      | ok d u =>
        cases d with
        | proceed =>
          rw [carryOut_of_proceed hd] at h
          obtain ⟨log, hr⟩ := ih h
          exact ⟨_, .step ht hd hr⟩
        | evaluate source =>
          cases hp : u.programOf source with
          | error e =>
            rw [carryOut_of_evaluate hd, evaluate_of_error hp] at h
            obtain ⟨log, hr⟩ := ih h
            exact ⟨_, .refuse ht hd hp hr⟩
          | ok program =>
            rw [carryOut_of_evaluate hd, evaluate_of_ok hp] at h
            cases hi : proceed fuel (u.nested program) with
            | none => simp [hi] at h
            | some inner =>
              rw [hi] at h
              obtain ⟨log, hr⟩ := ih hi
              obtain ⟨log', hr'⟩ := ih h
              exact ⟨_, .nest ht hd hp hr hr'⟩

/-- Every computed transaction has a derivation. -/
theorem exists_evaluates_of_evaluate (h : evaluate fuel source s = some r) :
    ∃ log, Evaluates source s log r := by
  cases hp : s.programOf source with
  | error e =>
    rw [evaluate_of_error hp] at h
    cases h
    exact ⟨_, .refuse hp⟩
  | ok program =>
    rw [evaluate_of_ok hp] at h
    obtain ⟨inner, hi, rfl⟩ := Option.map_eq_some_iff.1 h
    obtain ⟨log, hr⟩ := exists_runs_of_proceed hi
    exact ⟨log, .nest hp hr⟩

/-- The endings that runs have are those that can be computed, with some fuel. -/
theorem exists_runs_iff : (∃ log, Runs s log r) ↔ ∃ fuel, proceed fuel s = some r :=
  ⟨fun ⟨log, h⟩ => ⟨itemCount log + 1, h.proceed_eq (Nat.lt_succ_self _)⟩,
    fun ⟨_, h⟩ => exists_runs_of_proceed h⟩

end State

end Catena
