import Catena.Proofs.Steps

/-!
# What happens in a run

The log of a run exists only if the run comes to an end. Here an event *happens* in the run
of a state (`State.Happens`), or in that of a text (`State.HappensIn`), whether or not the
run ends, and with the level at which it happens: the number of words `eval` around it.

* `State.Runs.mem_log_iff`: in a run that ends, what happens is what the log tells;
* `State.Happens.depth_eq`: the level of an item is the depth of the machine that carries it
  out, counted from the outermost one.
-/

namespace Catena.State

variable {H : Type}

/-- An event happens in the run of a state, inside of so many nested runs. A text that is
    refused counts as a nested run. -/
inductive Happens [Host H] : State H → Nat → Event H → Prop
  | item {s t v} : s.turn = .item v t → Happens s 0 (.item v t)
  | stop {s t e} : s.turn = .stop e t → Happens s 0 (.refusal e t)
  | refuse {s t u v source e} : s.turn = .item v t → dispatch v t = .ok (.evaluate source) u →
    u.programOf source = .error e → Happens s 1 (.refusal e u)
  | nest {s t u v source program level event} : s.turn = .item v t →
    dispatch v t = .ok (.evaluate source) u → u.programOf source = .ok program →
    Happens (u.nested program) level event → Happens s (level + 1) event
  | later {s s' level event} : Step s s' → Happens s' level event → Happens s level event

/-- An event happens in the run of a text, inside of so many runs nested in that one. -/
inductive HappensIn [Host H] (source : String) (s : State H) : Nat → Event H → Prop
  | refuse {e} : s.programOf source = .error e → HappensIn source s 0 (.refusal e s)
  | nest {program level event} : s.programOf source = .ok program →
    Happens (s.nested program) level event → HappensIn source s level event

variable [Host H] {s t u s' : State H} {v : Value} {d : Demand} {source : String}
  {program : List Value} {level : Nat} {event : Event H} {log : List (Event H)} {r : Ending H}

/-- What happens in the run of a text happens in the run that demands it, one level deeper. -/
theorem Happens.of_text (ht : s.turn = .item v t) (hd : dispatch v t = .ok (.evaluate source) u)
    (h : HappensIn source u level event) : Happens s (level + 1) event := by
  cases h with
  | refuse hp => exact .refuse ht hd hp
  | nest hp h => exact .nest ht hd hp h

theorem happensIn_of_nested (hp : s.programOf source = .ok program) :
    HappensIn source s level event ↔ Happens (s.nested program) level event := by
  refine ⟨fun h => ?_, .nest hp⟩
  cases h with
  | refuse hp' => simp_all
  | nest hp' h =>
    rw [hp] at hp'
    cases hp'
    exact h

/-! ### Events and logs -/

/-- What the log of a run tells happens in it. -/
theorem Runs.exists_happens (h : Runs s log r) (he : event ∈ log) :
    ∃ level, Happens s level event := by
  induction h with
  | idle => cases he
  | stop ht =>
    obtain rfl := List.mem_singleton.1 he
    exact ⟨0, .stop ht⟩
  | fail ht hd =>
    obtain rfl := List.mem_singleton.1 he
    exact ⟨0, .item ht⟩
  | step ht hd _ ih =>
    rcases List.mem_cons.1 he with rfl | he
    · exact ⟨0, .item ht⟩
    · obtain ⟨level, h⟩ := ih he
      exact ⟨level, .later (.of_meets ht hd .proceed) h⟩
  | refuse ht hd hp _ ih =>
    rcases List.mem_cons.1 he with rfl | he
    · exact ⟨0, .item ht⟩
    rcases List.mem_cons.1 he with rfl | he
    · exact ⟨1, .refuse ht hd hp⟩
    · obtain ⟨level, h⟩ := ih he
      exact ⟨level, .later (.of_meets ht hd (.evaluate (.refuse hp))) h⟩
  | nest ht hd hp hi _ ihi ih =>
    rcases List.mem_cons.1 he with rfl | he
    · exact ⟨0, .item ht⟩
    rcases List.mem_append.1 he with he | he
    · obtain ⟨level, h⟩ := ihi he
      exact ⟨level + 1, .nest ht hd hp h⟩
    · obtain ⟨level, h⟩ := ih he
      exact ⟨level, .later (.of_meets ht hd (.evaluate (.nest hp hi))) h⟩

/-- What happens in a run that ends is in its log. -/
theorem Happens.mem_log (h : Happens s level event) (hr : Runs s log r) : event ∈ log := by
  induction h generalizing log r with
  | item ht => cases hr <;> simp_all
  | stop ht => cases hr <;> simp_all
  | refuse ht hd hp =>
    obtain ⟨log₁, m, log₂, hm, -, rfl⟩ := hr.exists_meets ht hd
    cases hm with
    | evaluate he => cases he <;> simp_all
  | nest ht hd hp _ ih =>
    obtain ⟨log₁, m, log₂, hm, -, rfl⟩ := hr.exists_meets ht hd
    cases hm with
    | evaluate he =>
      cases he with
      | refuse hp' => simp_all
      | nest hp' hi =>
        rw [hp] at hp'
        cases hp'
        exact List.mem_cons_of_mem _ (List.mem_append_left _ (ih hi))
  | later hs _ ih =>
    obtain ⟨log₁, log₂, hr', rfl⟩ := hr.behind_step hs
    exact List.mem_append_right _ (ih hr')

/-- In a run that ends, what happens is what the log tells. -/
theorem Runs.mem_log_iff (h : Runs s log r) : event ∈ log ↔ ∃ level, Happens s level event :=
  ⟨h.exists_happens, fun ⟨_, he⟩ => he.mem_log h⟩

/-- In the run of a text that ends, what happens is what the log tells. -/
theorem Evaluates.mem_log_iff (h : Evaluates source s log r) :
    event ∈ log ↔ ∃ level, HappensIn source s level event := by
  cases h with
  | refuse hp =>
    rw [List.mem_singleton]
    constructor
    · rintro rfl
      exact ⟨0, .refuse hp⟩
    · rintro ⟨level, h⟩
      cases h with
      | refuse hp' =>
        rw [hp] at hp'
        cases hp'
        rfl
      | nest hp' => simp_all
  | nest hp hi =>
    rw [hi.mem_log_iff]
    exact exists_congr fun level => (happensIn_of_nested hp).symm

/-! ### Levels -/

/-- An item that is carried out at some level is so by a machine of that depth, counted from
    the outermost one. -/
theorem Happens.depth_eq (h : Happens s level (.item v t)) : t.depth = s.depth + level := by
  generalize he : Event.item v t = event at h
  induction h with
  | item ht =>
    cases he
    exact (turn_item_frame ht).2.1
  | stop => cases he
  | refuse => cases he
  | nest ht hd _ _ ih =>
    rw [ih he, nested_depth, (dispatch_frame ht hd).2.1]
    omega
  | later hs _ ih => rw [ih he, hs.frame.2]

/-! ### Limits -/

/-- Only a limit on the number of items can be met by an item. -/
theorem Happens.steps_of_stepLimit {limit : Nat}
    (h : Happens s level (.refusal (.stepLimit limit) t)) : s.limits.steps = some limit := by
  generalize he : Event.refusal (.stepLimit limit) t = event at h
  induction h with
  | item => cases he
  | stop ht =>
    cases he
    obtain ⟨-, v, rest, limit, -, hm, hl, -⟩ := turn_eq_stop.1 ht
    cases hl
    exact (reachedLimit?_eq_some.1 hm).1
  | refuse _ _ hp =>
    cases he
    rcases programOf_eq_error.1 hp with ⟨-, hl⟩ | ⟨-, error, -, hl⟩ <;> cases hl
  | nest ht hd _ _ ih =>
    rw [← (dispatch_frame ht hd).1]
    exact ih he
  | later hs _ ih =>
    rw [← hs.frame.1]
    exact ih he

end Catena.State
