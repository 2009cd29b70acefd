import Catena.Proofs.Effect
import Catena.Proofs.Nesting
import Catena.Proofs.Runs
import Mathlib.Logic.Relation

/-!
# Runs turn by turn

A run is a sequence of turns: each takes an item off the queue, carries it out and meets its
demand, so that a nested run is part of one turn of the outer run (`State.Step`). The last
state has no such turn any more (`State.Closes`).

* `State.Runs.exists_closes`: a run goes through turns with success, up to a state that
  closes it;
* `State.exists_runs_iff_of_steps`: these turns do not change how it ends;
* `State.Step.frame`: they leave the limits and the depth alone.
-/

namespace Catena.State

variable {H : Type}

/-- One turn of a run that carries out an item with success. -/
def Step [Host H] (s s' : State H) : Prop :=
  ∃ v t fuel, s.turn = .item v t ∧ carryOut fuel v t = some (.finished s')

/-- How the run of a state ends that goes through no more turns with success. -/
inductive Closes [Host H] : State H → Ending H → Prop
  | idle {s} : s.turn = .idle → Closes s (.finished s)
  | stop {s t e} : s.turn = .stop e t → Closes s (.stopped e t)
  | fail {s t u v e} : s.turn = .item v t → dispatch v t = .error e u →
    Closes s (.stopped e u)

/-! ### The frame of a turn -/

section Frame

variable {s t : State H} {v : Value} {e : Fault}

theorem turn_stop_frame (ht : s.turn = .stop e t) :
    t.limits = s.limits ∧ t.depth = s.depth ∧ t.steps = s.steps := by
  obtain ⟨-, _, _, _, -, -, -, rfl⟩ := turn_eq_stop.1 ht
  exact ⟨rfl, rfl, rfl⟩

theorem turn_item_frame (ht : s.turn = .item v t) :
    t.limits = s.limits ∧ t.depth = s.depth ∧ t.steps = s.steps + 1 := by
  obtain ⟨-, _, -, -, rfl⟩ := turn_eq_item.1 ht
  exact ⟨rfl, rfl, rfl⟩

end Frame

variable [Host H] {s t u s' : State H} {v : Value} {d : Demand} {e : Fault}
  {log log' : List (Event H)} {r : Ending H}

/-- An item that is carried out is counted, whatever it demands. -/
theorem dispatch_frame (ht : s.turn = .item v t) (hd : dispatch v t = .ok d u) :
    u.limits = s.limits ∧ u.depth = s.depth ∧ u.steps = s.steps + 1 := by
  obtain ⟨hl, hk, hc⟩ := turn_item_frame ht
  obtain ⟨hl', hk', hc'⟩ := (carries_of_dispatch hd).frame
  exact ⟨hl'.trans hl, hk'.trans hk, hc'.trans hc⟩

/-- To meet a demand leaves the limits and the depth alone. -/
theorem Meets.frame (h : Meets d s log s') : s'.limits = s.limits ∧ s'.depth = s.depth := by
  cases h with
  | proceed => exact ⟨rfl, rfl⟩
  | evaluate he =>
    rw [Ending.withStatus_limits, Ending.withStatus_depth]
    cases he with
    | refuse hp => exact ⟨rfl, rfl⟩
    | nest hp hi => exact ⟨settle_limits, settle_depth⟩

/-! ### Turns and derivations -/

theorem Step.of_meets (ht : s.turn = .item v t) (hd : dispatch v t = .ok d u)
    (hm : Meets d u log s') : Step s s' := by
  cases hm with
  | proceed => exact ⟨v, t, 0, ht, carryOut_of_proceed hd⟩
  | @evaluate _ _ _ r he =>
    refine ⟨v, t, itemCount log + 1, ht, ?_⟩
    rw [carryOut_of_evaluate hd, he.evaluate_eq (Nat.lt_succ_self _), Option.map_some]

/-- The run of a state goes through a turn with success. -/
theorem Runs.exists_meets (h : Runs s log r) (ht : s.turn = .item v t)
    (hd : dispatch v t = .ok d u) :
    ∃ log₁ m log₂, Meets d u log₁ m ∧ Runs m log₂ r ∧ log = .item v t :: (log₁ ++ log₂) := by
  cases h with
  | idle ht' => simp_all
  | stop ht' => simp_all
  | fail ht' hd' => simp_all
  | step ht' hd' hr =>
    obtain ⟨rfl, rfl, rfl, rfl⟩ := item_unique ht ht' hd hd'
    exact ⟨_, _, _, .proceed, hr, rfl⟩
  | refuse ht' hd' hp hr =>
    obtain ⟨rfl, rfl, rfl, rfl⟩ := item_unique ht ht' hd hd'
    exact ⟨_, _, _, .evaluate (.refuse hp), hr, rfl⟩
  | nest ht' hd' hp hi hr =>
    obtain ⟨rfl, rfl, rfl, rfl⟩ := item_unique ht ht' hd hd'
    exact ⟨_, _, _, .evaluate (.nest hp hi), hr, rfl⟩

theorem Meets.unique {m m' : State H} (h : Meets d s log m) (h' : Meets d s log' m') :
    log = log' ∧ m = m' := by
  cases h with
  | proceed =>
    cases h'
    exact ⟨rfl, rfl⟩
  | evaluate he =>
    cases h' with
    | evaluate he' =>
      obtain ⟨rfl, rfl⟩ := he.unique he'
      exact ⟨rfl, rfl⟩

/-- What a turn with success consists of. -/
theorem Step.exists_meets (h : Step s s') :
    ∃ v t d u log, s.turn = .item v t ∧ dispatch v t = .ok d u ∧ Meets d u log s' := by
  obtain ⟨v, t, fuel, ht, hc⟩ := h
  cases hd : dispatch v t with
  | error e u =>
    rw [carryOut_of_error hd] at hc
    cases hc
  | ok d u =>
    refine ⟨v, t, d, u, ?_⟩
    cases d with
    | proceed =>
      rw [carryOut_of_proceed hd] at hc
      cases hc
      exact ⟨[], ht, hd, .proceed⟩
    | evaluate source =>
      rw [carryOut_of_evaluate hd] at hc
      obtain ⟨r, he, hs⟩ := Option.map_eq_some_iff.1 hc
      cases hs
      obtain ⟨log, hr⟩ := exists_evaluates_of_evaluate he
      exact ⟨log, ht, hd, .evaluate hr⟩

/-- A turn with success leaves the limits and the depth alone. -/
theorem Step.frame (h : Step s s') : s'.limits = s.limits ∧ s'.depth = s.depth := by
  obtain ⟨v, t, d, u, log, ht, hd, hm⟩ := h.exists_meets
  obtain ⟨hl, hk, -⟩ := dispatch_frame ht hd
  obtain ⟨hl', hk'⟩ := hm.frame
  exact ⟨hl'.trans hl, hk'.trans hk⟩

theorem steps_frame (h : Relation.ReflTransGen Step s t) :
    t.limits = s.limits ∧ t.depth = s.depth := by
  induction h with
  | refl => exact ⟨rfl, rfl⟩
  | tail _ hs ih =>
    obtain ⟨hl, hk⟩ := hs.frame
    exact ⟨hl.trans ih.1, hk.trans ih.2⟩

/-- A turn with success comes in front of any run. -/
theorem Step.runs (h : Step s s') (hr : Runs s' log r) : ∃ log', Runs s (log' ++ log) r := by
  obtain ⟨v, t, d, u, log', ht, hd, hm⟩ := h.exists_meets
  exact ⟨.item v t :: log', .meet ht hd hm hr⟩

/-- The run of a state goes on behind each of its turns with success. -/
theorem Runs.behind_step (h : Runs s log r) (hs : Step s s') :
    ∃ log₁ log₂, Runs s' log₂ r ∧ log = log₁ ++ log₂ := by
  obtain ⟨v, t, d, u, log', ht, hd, hm⟩ := hs.exists_meets
  obtain ⟨log₁, m, log₂, hm', hr, rfl⟩ := h.exists_meets ht hd
  obtain ⟨rfl, rfl⟩ := hm.unique hm'
  exact ⟨.item v t :: log', log₂, hr, rfl⟩

/-- A run goes through turns with success, up to a state that closes it. -/
theorem Runs.exists_closes (h : Runs s log r) :
    ∃ m, Relation.ReflTransGen Step s m ∧ Closes m r := by
  -- A nested run cannot be what closes the outer one: whatever its ending, the outer run goes
  -- on with a symbol on the stack.
  induction h with
  | idle ht => exact ⟨_, .refl, .idle ht⟩
  | stop ht => exact ⟨_, .refl, .stop ht⟩
  | fail ht hd => exact ⟨_, .refl, .fail ht hd⟩
  | step ht hd _ ih =>
    obtain ⟨m, hm, hl⟩ := ih
    exact ⟨m, .head (.of_meets ht hd .proceed) hm, hl⟩
  | refuse ht hd hp _ ih =>
    obtain ⟨m, hm, hl⟩ := ih
    exact ⟨m, .head (.of_meets ht hd (.evaluate (.refuse hp))) hm, hl⟩
  | nest ht hd hp hi _ _ ih =>
    obtain ⟨m, hm, hl⟩ := ih
    exact ⟨m, .head (.of_meets ht hd (.evaluate (.nest hp hi))) hm, hl⟩

theorem Closes.exists_runs (h : Closes s r) : ∃ log, Runs s log r := by
  cases h with
  | idle ht => exact ⟨_, .idle ht⟩
  | stop ht => exact ⟨_, .stop ht⟩
  | fail ht hd => exact ⟨_, .fail ht hd⟩

/-- Turns with success do not change how a run ends. -/
theorem exists_runs_iff_of_steps {m : State H} (h : Relation.ReflTransGen Step s m) :
    (∃ log, Runs s log r) ↔ ∃ log, Runs m log r := by
  induction h with
  | refl => rfl
  | tail _ hs ih =>
    rw [ih]
    constructor
    · rintro ⟨log, hr⟩
      obtain ⟨-, log', hr', -⟩ := hr.behind_step hs
      exact ⟨log', hr'⟩
    · rintro ⟨log, hr⟩
      obtain ⟨log', hr'⟩ := hs.runs hr
      exact ⟨_, hr'⟩

/-- A run that is stopped goes through turns with success up to the one that stops it. -/
theorem Runs.exists_last_turn (h : Runs s log (.stopped e s')) :
    ∃ m, Relation.ReflTransGen Step s m ∧
      (m.turn = .stop e s' ∨ ∃ v t, m.turn = .item v t ∧ dispatch v t = .error e s') := by
  obtain ⟨m, hm, hc⟩ := h.exists_closes
  cases hc with
  | stop ht => exact ⟨m, hm, .inl ht⟩
  | fail ht hd => exact ⟨m, hm, .inr ⟨_, _, ht, hd⟩⟩

/-- A run that succeeds goes through turns with success up to the end, where nothing is left
    to do. -/
theorem Runs.steps_finished (h : Runs s log (.finished s')) :
    Relation.ReflTransGen Step s s' ∧ s'.turn = .idle := by
  obtain ⟨m, hm, hc⟩ := h.exists_closes
  cases hc with
  | idle ht => exact ⟨hm, ht⟩

end Catena.State
