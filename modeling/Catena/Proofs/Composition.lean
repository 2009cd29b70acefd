import Catena.Proofs.Halting
import Catena.Proofs.Limits

/-!
# Programs one behind the other

A run looks only at the front of its queue: words put their code in front of what is there, and
what is behind stays behind, until its turn comes or the program ends
(`State.carryOut_followedBy`). So a queue that consists of two programs is the one program run
after the other. And since neither depth nor count matter while no limit is met, it makes no
difference either whether a program is run in place or on a machine of its own that commits.

* `State.run_append`: to run two programs in one queue is to run one and then the other;
* `State.run_eval_inlined`: to evaluate a text is to run its items in place.
-/

namespace Catena

variable {H : Type}

/-- The ending with another state. -/
def Ending.map (f : State H → State H) : Ending H → Ending H
  | .finished s => .finished (f s)
  | .stopped e s => .stopped e (f s)

/-! ### Items behind a queue -/

namespace State

/-- The state with items behind its queue. They are dropped with the queue if the program has
    ended. -/
def followedBy (items : List Value) (s : State H) : State H :=
  { s with queue := if s.halted then s.queue else s.queue ++ items }

variable {s s' t : State H} {items : List Value} {v : Value} {e : Fault} {r : Ending H}

theorem followedBy_of_halted (hs : s.halted = true) : s.followedBy items = s := by
  rw [followedBy, if_pos hs]

theorem followedBy_of_not_halted (hs : s.halted = false) :
    s.followedBy items = { s with queue := s.queue ++ items } := by
  rw [followedBy, if_neg (by simp [hs])]

theorem withStatus_map_followedBy :
    (r.map (followedBy items)).withStatus = r.withStatus.followedBy items := by
  cases r <;> rfl

theorem settle_followedBy (hs : s.halted = false) :
    (s.followedBy items).settle r = (s.settle r).map (followedBy items) := by
  cases r with
  | stopped e inner => rfl
  | finished inner =>
    refine congrArg Ending.finished ?_
    cases hi : inner.halted with
    | true =>
      have hc : (s.commit inner).halted = true := by rw [commit_halted, hi, Bool.true_or]
      rw [followedBy_of_halted hc, commit_eq, commit_eq, hi]
      rfl
    | false =>
      have hc : (s.commit inner).halted = false := by rw [commit_halted, hi, hs, Bool.false_or]
      rw [followedBy_of_not_halted hc, followedBy_of_not_halted hs, commit_eq, commit_eq, hi]
      rfl

theorem turn_followedBy_stop (hs : s.turn = .stop e t) :
    (s.followedBy items).turn = .stop e (t.followedBy items) := by
  obtain ⟨hh, v, rest, limit, hq, hm, rfl, rfl⟩ := turn_eq_stop.1 hs
  rw [followedBy_of_not_halted hh, followedBy_of_not_halted (s := { s with queue := rest }) hh]
  exact turn_eq_stop.2 ⟨hh, v, rest ++ items, limit, congrArg (· ++ items) hq, hm, rfl, rfl⟩

theorem turn_followedBy_item (hs : s.turn = .item v t) :
    (s.followedBy items).turn = .item v (t.followedBy items) := by
  obtain ⟨hh, rest, hq, hm, rfl⟩ := turn_eq_item.1 hs
  rw [followedBy_of_not_halted hh,
    followedBy_of_not_halted (s := { s with queue := rest, steps := s.steps + 1 }) hh]
  exact turn_eq_item.2 ⟨hh, rest ++ items, congrArg (· ++ items) hq, hm, rfl⟩

end State

section FollowedBy

variable [Host H] {s s' : State H} {items : List Value} {v : Value} {w : Word} {d : Demand}
  {e : Fault}

/-- A core word leaves behind the queue what is there, but for `exit`, which drops it. -/
theorem Word.Effect.followedBy (h : w.Effect s d s') (hs : s.halted = false) :
    w.Effect (s.followedBy items) d (s'.followedBy items) := by
  rw [State.followedBy_of_not_halted hs]
  cases hs' : s'.halted with
  | true =>
    obtain rfl : w = .exit := by simpa [hs] using h.halted_iff.1 hs'
    rw [State.followedBy_of_halted hs']
    cases h with
    | rewrite hr => cases hr
    | exit => exact .exit
  | false =>
    rw [State.followedBy_of_not_halted hs']
    cases h with
    | rewrite hr hst => exact .rewrite (s := { s with queue := s.queue ++ items }) hr hst
    | printStack => exact .printStack
    | call hst ha =>
      dsimp only
      rw [List.append_assoc]
      exact .call (s := { s with queue := s.queue ++ items }) hst ha
    | callFails hst ha => exact .callFails (s := { s with queue := s.queue ++ items }) hst ha
    | select hst ha =>
      dsimp only
      rw [List.append_assoc]
      exact .select (s := { s with queue := s.queue ++ items }) hst ha
    | selectNone hst ha => exact .selectNone (s := { s with queue := s.queue ++ items }) hst ha
    | define hst => exact .define (s := { s with queue := s.queue ++ items }) hst
    | eval hst => exact .eval (s := { s with queue := s.queue ++ items }) hst
    | exit => cases hs'

namespace State

theorem Carries.followedBy (h : Carries v s d s') (hs : s.halted = false) :
    Carries v (s.followedBy items) d (s'.followedBy items) := by
  cases h with
  | literal hv =>
    rw [followedBy_of_not_halted hs, followedBy_of_not_halted (by exact hs)]
    exact .literal hv
  | core hw ha he => exact .core hw ha (he.followedBy hs)
  | @bound _ _ s hw hq =>
    rw [followedBy_of_not_halted hs, followedBy_of_not_halted (by exact hs)]
    exact .bound (s := { s with queue := s.queue ++ items }) hw hq

omit [Host H] in
theorem Fails.followedBy (h : Fails v s e) : Fails v (s.followedBy items) e := by
  cases h with
  | @mismatch _ _ s hw ha => exact .mismatch (s := s.followedBy items) hw ha
  | @unknownWord _ s hw hq => exact .unknownWord (s := s.followedBy items) hw hq

variable {fuel : Nat} {source : String}

theorem evaluate_followedBy (hs : s.halted = false) :
    evaluate fuel source (s.followedBy items) =
      (evaluate fuel source s).map (Ending.map (followedBy items)) := by
  cases hp : s.programOf source with
  | error e => rw [evaluate_of_error hp, evaluate_of_error (s := s.followedBy items) hp]; rfl
  | ok program =>
    rw [evaluate_of_ok hp, evaluate_of_ok (s := s.followedBy items) hp, Option.map_map]
    exact congrArg (Option.map · _) (funext fun r => settle_followedBy hs)

/-- To carry out an item is to leave alone what is behind the queue. -/
theorem carryOut_followedBy (hs : s.halted = false) :
    carryOut fuel v (s.followedBy items) =
      (carryOut fuel v s).map (Ending.map (followedBy items)) := by
  obtain ⟨d, s', hc, hd⟩ | ⟨e, hf, hd⟩ := dispatch_cases v s
  · have hd' : dispatch v (s.followedBy items) = .ok d (s'.followedBy items) :=
      (hc.followedBy hs).dispatch_eq
    cases d with
    | proceed => rw [carryOut_of_proceed hd, carryOut_of_proceed hd']; rfl
    | evaluate source =>
      obtain ⟨-, -, he⟩ := hc.eq_eval
      have hs' : s'.halted = false := by rw [he, hs]
      rw [carryOut_of_evaluate hd, carryOut_of_evaluate hd', evaluate_followedBy hs',
        Option.map_map, Option.map_map]
      exact congrArg (Option.map · _)
        (funext fun r => congrArg Ending.finished withStatus_map_followedBy)
  · rw [carryOut_of_error hd, carryOut_of_error hf.followedBy.dispatch_eq]
    rfl

/-! ### Turns in front of what is behind -/

variable {r : Ending H} {m t : State H}

theorem Step.followedBy (h : Step s s') : Step (s.followedBy items) (s'.followedBy items) := by
  obtain ⟨v, t, fuel, ht, hc⟩ := h
  obtain ⟨hh, rest, -, -, rfl⟩ := turn_eq_item.1 ht
  refine ⟨v, _, fuel, turn_followedBy_item ht, ?_⟩
  rw [carryOut_followedBy (by exact hh), hc]
  rfl

theorem steps_followedBy (items : List Value) (h : Relation.ReflTransGen Step s m) :
    Relation.ReflTransGen Step (s.followedBy items) (m.followedBy items) :=
  h.lift _ fun _ _ => Step.followedBy

theorem Closes.followedBy_stopped (h : Closes s (.stopped e t)) :
    Closes (s.followedBy items) (.stopped e (t.followedBy items)) := by
  cases h with
  | stop ht => exact .stop (turn_followedBy_stop ht)
  | fail ht hd =>
    obtain ⟨hf, rfl⟩ := fails_of_dispatch hd
    exact .fail (turn_followedBy_item ht) hf.followedBy.dispatch_eq

/-- A run that ends with items behind its queue also ends without them. -/
theorem exists_proceed_of_followedBy (h : proceed fuel (s.followedBy items) = some r) :
    ∃ r', proceed fuel s = some r' := by
  induction fuel generalizing s with
  | zero => cases h
  | succ fuel ih =>
    cases ht : s.turn with
    | idle => exact ⟨_, proceed_of_idle ht⟩
    | stop e t => exact ⟨_, proceed_of_stop ht⟩
    | item v t =>
      obtain ⟨hh, rest, -, -, rfl⟩ := turn_eq_item.1 ht
      rw [proceed_of_item (turn_followedBy_item ht), carryOut_followedBy (by exact hh)] at h
      rw [proceed_of_item ht]
      cases hc : carryOut fuel v { s with queue := rest, steps := s.steps + 1 } with
      | none =>
        rw [hc] at h
        cases h
      | some c =>
        rw [hc] at h
        cases c with
        | stopped e u => exact ⟨_, rfl⟩
        | finished u => exact ih h

end State

end FollowedBy

/-! ### Runs of a queue -/

namespace State

section Ends

variable [Host H]

/-- A machine that runs its queue comes to this ending. -/
def Ends (s : State H) (r : Ending H) : Prop :=
  ∃ fuel, run fuel s = some r

/-- Two machines that run their queues end in the same way, for the same cause, in states that
    agree; or neither of them comes to an end. -/
structure EndAlike (s t : State H) : Prop where
  forth : ∀ r, Ends s r → ∃ r', Ends t r' ∧ r.Rel Agree r'
  back : ∀ r', Ends t r' → ∃ r, Ends s r ∧ r.Rel Agree r'

end Ends

variable {s t m m' : State H} {r : Ending H}

/-- A run starts on the machine as it is, but for the count. -/
theorem exists_recount_eq (s : State H) : ∃ n, s.recount = { s with steps := n } := by
  unfold recount
  split
  · exact ⟨0, rfl⟩
  · exact ⟨s.steps, rfl⟩

theorem recount_append (hs : s.halted = false) (first second : List Value) :
    State.recount { s with queue := first ++ second } =
      followedBy second (State.recount { s with queue := first }) := by
  unfold recount
  dsimp only
  split <;> simp only [followedBy, hs, Bool.false_eq_true, if_false]

/-- Without a limit on the number of items, the next item is carried out. -/
theorem turn_cons {v : Value} {rest : List Value} (hs : s.halted = false)
    (hn : s.limits.steps = none) (hq : s.queue = v :: rest) :
    s.turn = .item v { s with queue := rest, steps := s.steps + 1 } :=
  turn_eq_item.2 ⟨hs, rest, hq, by rw [Machine.reachedLimit?, hn]; rfl, rfl⟩

variable [Host H]

/-- Without such a limit, a literal at the front of the queue is pushed. -/
theorem step_literal {v : Value} {rest : List Value} (hs : s.halted = false)
    (hn : s.limits.steps = none) (hv : ∀ name, v ≠ .atom name) (hq : s.queue = v :: rest) :
    Step s { s with stack := v :: s.stack, queue := rest, steps := s.steps + 1 } :=
  .of_meets (turn_cons hs hn hq) (dispatch_literal hv) .proceed

theorem ends_iff_of_steps (h : Relation.ReflTransGen Step s.recount m) :
    Ends s r ↔ ∃ log, Runs m log r := by
  rw [← exists_runs_iff_of_steps h, exists_runs_iff]
  rfl

/-- Machines end alike that come to states which agree, if there is no limit on the number of
    items. -/
theorem endAlike_of_steps (hs : Relation.ReflTransGen Step s.recount m)
    (ht : Relation.ReflTransGen Step t.recount m') (h : Agree m m')
    (hl : m'.limits = m.limits) (hk : m'.depth = m.depth) (hn : m.limits.steps = none) :
    EndAlike s t := by
  have hrel := proceed_agree_of_unlimited h hl hk hn
  constructor
  · intro r hr
    obtain ⟨fuel, hf⟩ := exists_runs_iff.1 ((ends_iff_of_steps hs).1 hr)
    obtain ⟨r', hf', hr'⟩ := Ending.exists_rel_right (hrel fuel) hf
    exact ⟨r', (ends_iff_of_steps ht).2 (exists_runs_of_proceed hf'), hr'⟩
  · intro r' hr
    obtain ⟨fuel, hf⟩ := exists_runs_iff.1 ((ends_iff_of_steps ht).1 hr)
    obtain ⟨r, hf', hr'⟩ := Ending.exists_rel_left (hrel fuel) hf
    exact ⟨r, (ends_iff_of_steps hs).2 (exists_runs_of_proceed hf'), hr'⟩

/-! ### One program and then another -/

section Append

variable {first second : List Value} {s s' : State H} {e : Fault}

/-- A program that succeeds brings the machine to the items behind it. -/
theorem Ends.steps_append (h : Ends { s with queue := first } (.finished s'))
    (hs : s.halted = false) (second : List Value) :
    Relation.ReflTransGen Step (State.recount { s with queue := first ++ second })
        (s'.followedBy second) ∧
      s'.turn = .idle ∧ s'.limits = s.limits ∧ s'.depth = s.depth := by
  obtain ⟨log, hr⟩ := (ends_iff_of_steps .refl).1 h
  obtain ⟨hsteps, ht⟩ := hr.steps_finished
  obtain ⟨n, hc⟩ := exists_recount_eq { s with queue := first }
  have hf := steps_frame hsteps
  rw [hc] at hf
  rw [recount_append hs]
  exact ⟨steps_followedBy second hsteps, ht, hf⟩

/-- If the first program succeeds, the second starts from what it leaves. -/
theorem Ends.endAlike_append (h : Ends { s with queue := first } (.finished s'))
    (hs : s.halted = false) (hn : s.limits.steps = none) (hs' : s'.halted = false) :
    EndAlike { s with queue := first ++ second }
      { s with queue := second, stack := s'.stack, env := s'.env, host := s'.host } := by
  obtain ⟨hsteps, ht, hl, hk⟩ := h.steps_append hs second
  have hq : s'.queue = [] := by simpa [hs'] using turn_eq_idle.1 ht
  rw [followedBy_of_not_halted hs', hq, List.nil_append] at hsteps
  obtain ⟨n, hc⟩ := exists_recount_eq
    { s with queue := second, stack := s'.stack, env := s'.env, host := s'.host }
  refine endAlike_of_steps hsteps .refl ?_ ?_ ?_ (hl ▸ hn)
  · rw [hc]
    exact ⟨rfl, rfl, rfl, hs.trans hs'.symm, rfl⟩
  · rw [hc]
    exact hl.symm
  · rw [hc]
    exact hk.symm

/-- If the first program fails, so do both together, with the same items left and the second
    program behind them. -/
theorem Ends.append_stopped (h : Ends { s with queue := first } (.stopped e s'))
    (hs : s.halted = false) :
    Ends { s with queue := first ++ second }
      (.stopped e { s' with queue := s'.queue ++ second }) := by
  obtain ⟨log, hr⟩ := (ends_iff_of_steps .refl).1 h
  obtain ⟨m, hm, hclose⟩ := hr.exists_closes
  have hclose' : Closes (m.followedBy second) (.stopped e (s'.followedBy second)) :=
    hclose.followedBy_stopped
  rw [followedBy_of_not_halted hr.not_halted_of_stopped] at hclose'
  refine (ends_iff_of_steps (m := m.followedBy second) ?_).2 hclose'.exists_runs
  rw [recount_append hs]
  exact steps_followedBy second hm

/-- If the first program ends with the word `exit`, the second is dropped. -/
theorem Ends.append_halted (h : Ends { s with queue := first } (.finished s'))
    (hs : s.halted = false) (hs' : s'.halted = true) :
    s'.queue = [] ∧ Ends { s with queue := first ++ second } (.finished s') := by
  obtain ⟨log, hr⟩ := (ends_iff_of_steps .refl).1 h
  obtain ⟨n, hc⟩ := exists_recount_eq { s with queue := first }
  obtain ⟨hsteps, ht, -⟩ := h.steps_append hs second
  rw [followedBy_of_halted hs'] at hsteps
  refine ⟨hr.queue_eq_nil_of_halted ?_ hs', (ends_iff_of_steps hsteps).2 ⟨_, .idle ht⟩⟩
  rw [hc]
  exact hs

/-- If both programs together come to an end, so does the first. -/
theorem Ends.exists_of_append {r : Ending H} (h : Ends { s with queue := first ++ second } r)
    (hs : s.halted = false) : ∃ r', Ends { s with queue := first } r' := by
  obtain ⟨fuel, hf⟩ := h
  rw [run, recount_append hs] at hf
  obtain ⟨r', hf'⟩ := exists_proceed_of_followedBy hf
  exact ⟨r', fuel, hf'⟩

/-- To run two programs in one queue is to run the first and then the second. If the first
    succeeds, the second starts from the stack, the environment and the host that it leaves; if
    it fails, so does the whole queue, with the second program behind what is left of the first;
    if it ends with the word `exit`, the second is dropped; and if it goes on for ever, so does
    the whole queue. -/
theorem run_append (first second : List Value) (s : State H) (hs : s.halted = false)
    (hn : s.limits.steps = none) :
    (∀ s', Ends { s with queue := first } (.finished s') → s'.halted = false →
      EndAlike { s with queue := first ++ second }
        { s with queue := second, stack := s'.stack, env := s'.env, host := s'.host }) ∧
      (∀ e s', Ends { s with queue := first } (.stopped e s') →
        Ends { s with queue := first ++ second }
          (.stopped e { s' with queue := s'.queue ++ second })) ∧
      (∀ s', Ends { s with queue := first } (.finished s') → s'.halted = true →
        s'.queue = [] ∧ Ends { s with queue := first ++ second } (.finished s')) ∧
      ((∀ r, ¬ Ends { s with queue := first } r) →
        ∀ r, ¬ Ends { s with queue := first ++ second } r) := by
  refine ⟨fun s' h hs' => h.endAlike_append hs hn hs', fun e s' h => h.append_stopped hs,
    fun s' h hs' => h.append_halted hs hs', fun h r hr => ?_⟩
  obtain ⟨r', hr'⟩ := hr.exists_of_append hs
  exact h r' hr'

/-- A bound name puts its code in front of the second program, which then fails on what the
    first has left. -/
theorem run_append_bound :
    ∃ s s' u : State Sandbox, s.halted = false ∧ s.limits.steps = none ∧
      s.env.get? "dup" = some ⟨[.atom "x"], [.atom "x", .atom "x"]⟩ ∧
      Ends { s with queue := [.sym "a", .atom "dup"] } (.finished s') ∧ s'.halted = false ∧
      Ends { s with queue := [.sym "a", .atom "dup"] ++ [.atom "+", .sym "c"] }
        (.stopped (.mismatch .add [.num, .num] [.sym, .sym]) u) ∧
      u.stack = [.sym "a", .sym "a"] ∧ u.queue = [.sym "c"] := by
  let s : State Sandbox :=
    { env := Dictionary.empty.insert "dup" ⟨[.atom "x"], [.atom "x", .atom "x"]⟩, host := {} }
  obtain ⟨s', hs', hh, he⟩ : ∃ s', Ends { s with queue := [.sym "a", .atom "dup"] } (.finished s') ∧
      s'.halted = false ∧ Ends { s with
        queue := [.atom "+", .sym "c"], stack := s'.stack, env := s'.env, host := s'.host }
        (.stopped (.mismatch .add [.num, .num] [.sym, .sym]) _) :=
    ⟨_, ⟨7, rfl⟩, rfl, 2, rfl⟩
  obtain ⟨-, hback⟩ := (run_append _ [.atom "+", .sym "c"] s rfl rfl).1 s' hs' hh
  obtain ⟨r, hr, hrel⟩ := hback _ he
  cases hrel with
  | stopped ha => exact ⟨s, s', _, rfl, rfl, rfl, hs', hh, hr, ha.stack.symm, ha.queue.symm⟩

end Append

/-! ### A text in place of its evaluation -/

section Inlined

variable {program rest : List Value} {source : String} {s inner : State H} {n : Nat}
  {log : List (Event H)}

/-- The string and the word `eval` bring the machine to what is behind them, with what the text
    has reached. The count with which the nested run starts does not matter. -/
theorem steps_eval (rest : List Value) (hs : s.halted = false) (hn : s.limits.steps = none)
    (hd : s.depth < s.limits.depth) (hp : Parser.parse Parser.defaultDepth source = .ok program)
    (hr : Runs (State.nested { s with steps := n } program) log (.finished inner))
    (hi : inner.halted = false) :
    ∃ m, Relation.ReflTransGen Step
        (State.recount { s with queue := .str source :: .atom Word.eval.name :: rest }) m ∧
      Agree { inner with stack := .ok :: inner.stack, queue := rest } m := by
  obtain ⟨k, hk⟩ :=
    exists_recount_eq { s with queue := .str source :: .atom Word.eval.name :: rest }
  -- The states behind the string, and in which the text is to be run.
  let t : State H :=
    { s with
      stack := .str source :: s.stack, queue := .atom Word.eval.name :: rest, steps := k + 1 }
  let u : State H := { s with queue := rest, steps := k + 2 }
  have hpush : Step (State.recount
      { s with queue := .str source :: .atom Word.eval.name :: rest }) t := by
    rw [hk]
    exact step_literal hs hn nofun rfl
  have ht : t.turn = .item (.atom Word.eval.name) { u with stack := t.stack } :=
    turn_cons hs hn rfl
  have heval : dispatch (.atom Word.eval.name) { u with stack := t.stack } =
      .ok (.evaluate source) u :=
    (Carries.core (Word.ofName?_name .eval) (Signature.admits_string.2 ⟨source, s.stack, rfl⟩)
      (.eval rfl)).dispatch_eq
  have hagree : Agree (State.nested { s with steps := n } program) (u.nested program) :=
    ⟨rfl, rfl, rfl, rfl, rfl⟩
  obtain ⟨inner', hf, ha⟩ := Ending.exists_finished_right
    (proceed_agree_of_unlimited hagree rfl rfl hn _) (hr.proceed_eq (Nat.lt_succ_self _))
  have hi' : inner'.halted = false := ha.halted.trans hi
  obtain ⟨log', hr'⟩ := exists_runs_of_proceed hf
  have hstep := Step.of_meets ht heval (.evaluate (.nest (programOf_eq_ok.2 ⟨hd, hp⟩) hr'))
  exact ⟨_, .tail (.single hpush) hstep,
    { stack := congrArg (Value.ok :: ·) (commit_stack.trans ha.stack)
      queue := commit_queue hi'
      env := commit_env.trans ha.env
      halted := commit_halted.trans (by rw [hi', hi, Bool.false_or]; exact hs)
      host := commit_host.trans ha.host }⟩

/-- The items of the text, and a symbol behind them, bring the machine there as well, if they
    meet no limit on the depth one level deeper. -/
theorem steps_inlined (rest : List Value) (hs : s.halted = false) (hn : s.limits.steps = none)
    (hr : Runs (State.nested { s with steps := n } program) log (.finished inner))
    (hi : inner.halted = false) (hx : ∀ limit t, Event.refusal (.depthLimit limit) t ∉ log) :
    ∃ m, Relation.ReflTransGen Step
        (State.recount { s with queue := program ++ .ok :: rest }) m ∧
      Agree { inner with stack := .ok :: inner.stack, queue := rest } m := by
  obtain ⟨k, hk⟩ := exists_recount_eq { s with queue := program }
  have hagree : Agree (State.nested { s with steps := n } program)
      { s with queue := program, steps := k } := ⟨rfl, rfl, rfl, hs, rfl⟩
  obtain ⟨t, hf, ht⟩ := Ending.exists_finished_right
    (proceed_agree_of_le_depth hagree rfl rfl hn
      (fun level e u => hr.not_isLimit_of_happens hn hx) _)
    (hr.proceed_eq (Nat.lt_succ_self _))
  obtain ⟨log', hr'⟩ := exists_runs_of_proceed hf
  obtain ⟨hsteps, hidle⟩ := hr'.steps_finished
  have hh : t.halted = false := ht.halted.trans hi
  have hq : t.queue = [] := by simpa [hh] using turn_eq_idle.1 hidle
  have hl : t.limits = s.limits := (steps_frame hsteps).1
  have hfollow := steps_followedBy (.ok :: rest) hsteps
  rw [← hk, ← recount_append hs, followedBy_of_not_halted hh, hq, List.nil_append] at hfollow
  exact ⟨_, .tail hfollow (step_literal (v := .ok) hh (hl ▸ hn) nofun rfl), { ht with
    stack := congrArg (Value.ok :: ·) ht.stack
    queue := rfl }⟩

/-- To evaluate a text is to run its items in place, with a symbol behind them, if the nested
    run succeeds without an end of the program, and nothing in it meets the limit on the depth.
    Both ways lead to the same stack, environment and host in front of what is behind, and so
    to the same ending. The count with which the nested run starts does not matter. -/
theorem run_eval_inlined (source : String) (program rest : List Value) (s inner : State H)
    (n : Nat) (log : List (Event H)) (hs : s.halted = false) (hn : s.limits.steps = none)
    (hd : s.depth < s.limits.depth) (hp : Parser.parse Parser.defaultDepth source = .ok program)
    (hr : Runs (State.nested { s with steps := n } program) log (.finished inner))
    (hi : inner.halted = false) (hx : ∀ limit t, Event.refusal (.depthLimit limit) t ∉ log) :
    (∃ m m',
      Relation.ReflTransGen Step
        (State.recount { s with queue := .str source :: .atom Word.eval.name :: rest }) m ∧
      Relation.ReflTransGen Step
        (State.recount { s with queue := program ++ .ok :: rest }) m' ∧
      m.queue = rest ∧ m.stack = .ok :: inner.stack ∧ m.env = inner.env ∧ m.host = inner.host ∧
      m.halted = false ∧ Agree m m') ∧
      EndAlike { s with queue := .str source :: .atom Word.eval.name :: rest }
        { s with queue := program ++ .ok :: rest } := by
  obtain ⟨m, hm, ha⟩ := steps_eval rest hs hn hd hp hr hi
  obtain ⟨m', hm', ha'⟩ := steps_inlined rest hs hn hr hi hx
  have hagree : Agree m m' := ha.symm.trans ha'
  obtain ⟨k, hk⟩ :=
    exists_recount_eq { s with queue := .str source :: .atom Word.eval.name :: rest }
  obtain ⟨k', hk'⟩ := exists_recount_eq { s with queue := program ++ .ok :: rest }
  obtain ⟨hl, hdepth⟩ := steps_frame hm
  obtain ⟨hl', hdepth'⟩ := steps_frame hm'
  rw [hk] at hl hdepth
  rw [hk'] at hl' hdepth'
  exact ⟨⟨m, m', hm, hm', ha.queue, ha.stack, ha.env, ha.host, ha.halted.trans hi, hagree⟩,
    endAlike_of_steps hm hm' hagree (hl'.trans hl.symm) (hdepth'.trans hdepth.symm)
      (by rw [hl]; exact hn)⟩

/-- A text that evaluates another, evaluated and in place. -/
theorem run_eval_inlined_nested :
    ∃ s m m' : State Sandbox, s.halted = false ∧ s.limits.steps = none ∧ s.depth < s.limits.depth ∧
      Parser.parse Parser.defaultDepth "':a' eval" = .ok [.str ":a", .atom "eval"] ∧
      Relation.ReflTransGen Step
        (State.recount { s with queue := [.str "':a' eval", .atom "eval", .sym "b"] }) m ∧
      Relation.ReflTransGen Step
        (State.recount { s with queue := [.str ":a", .atom "eval", .ok, .sym "b"] }) m' ∧
      m.queue = [.sym "b"] ∧ m.stack = [.ok, .ok, .sym "a"] ∧ Agree m m' ∧
      EndAlike { s with queue := [.str "':a' eval", .atom "eval", .sym "b"] }
        { s with queue := [.str ":a", .atom "eval", .ok, .sym "b"] } := by
  have hp : Parser.parse Parser.defaultDepth "':a' eval" = .ok [.str ":a", .atom "eval"] := by
    with_unfolding_all rfl
  have hp' : Parser.parse Parser.defaultDepth ":a" = .ok [.sym "a"] := by
    with_unfolding_all rfl
  have hd : 0 < ({} : Limits).depth := by decide
  have hd' : 1 < ({} : Limits).depth := by decide
  obtain ⟨⟨m, m', hm, hm', hq, hst, -, -, -, ha⟩, he⟩ := run_eval_inlined (H := Sandbox) "':a' eval"
    [.str ":a", .atom "eval"] [.sym "b"] { host := {} } _ 2 _ rfl rfl hd hp
    (.step rfl rfl (.nest rfl rfl (programOf_eq_ok.2 ⟨hd', hp'⟩)
      (.step rfl rfl (.idle rfl)) (.idle rfl))) rfl (by simp)
  exact ⟨_, m, m', rfl, rfl, hd, hp, hm, hm', hq, hst, ha, he⟩

end Inlined

end State

end Catena
