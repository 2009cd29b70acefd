import Catena.Host.Sandbox
import Catena.Proofs.Occurrence

/-!
# The end of a program

A program ends with the word `exit`, wherever it is carried out: a nested run in which
this happens ends at once, and takes the runs around it along.

* `State.SetByExit.runs`: a run leaves its machine halted, and a sandbox told of the end,
  exactly if `exit` is carried out in it, at whatever level;
* `State.Happens.exists_runs_exit`: from `exit` on nothing happens any more, and every run
  around it succeeds;
* `State.evaluate_exit`: what a text leaves behind in which `exit` is carried out, and that
  nothing else tells the host that the program has ended.
-/

namespace Catena

variable {H : Type}

/-- Whether the word `exit` is carried out in a run, at any level of nesting. -/
def Exits (log : List (Event H)) : Prop :=
  ∃ s, Event.item (.atom Word.exit.name) s ∈ log

@[simp]
theorem not_exits_nil : ¬ Exits ([] : List (Event H)) := by
  simp [Exits]

@[simp]
theorem exits_item {v : Value} {s : State H} {log : List (Event H)} :
    Exits (.item v s :: log) ↔ v = .atom Word.exit.name ∨ Exits log := by
  simp [Exits, exists_or, eq_comm]

@[simp]
theorem exits_refusal {e : Fault} {s : State H} {log : List (Event H)} :
    Exits (.refusal e s :: log) ↔ Exits log := by
  simp [Exits]

@[simp]
theorem exits_append {log log' : List (Event H)} :
    Exits (log ++ log') ↔ Exits log ∨ Exits log' := by
  simp [Exits, exists_or]

/-! ### Halted machines -/

namespace State

/-- A mark on states that `exit` sets, and no other item. A transaction sets it if the nested
    run does. -/
structure SetByExit [Host H] (mark : State H → Bool) : Prop where
  frame {s t} : t.halted = s.halted → t.host = s.host → mark t = mark s
  carries {s s' v d} : Carries v s d s' →
    (mark s' = true ↔ mark s = true ∨ v = .atom Word.exit.name)
  settle {s program log r} : Runs (s.nested program) log r →
    (mark r.state = true ↔ mark (s.nested program) = true ∨ Exits log) →
    (mark (s.settle r).state = true ↔ mark s = true ∨ Exits log)

variable [Host H] {s t s' : State H} {v : Value} {e : Fault} {source : String}
  {log : List (Event H)} {r : Ending H}

/-- A fault stops a machine, but does not halt it. -/
theorem Runs.not_halted_of_stopped (h : Runs s log (.stopped e s')) : s'.halted = false := by
  obtain ⟨m, -, ht | ⟨v, t, ht, hd⟩⟩ := h.exists_last_turn
  · obtain ⟨hm, _, _, _, -, -, -, rfl⟩ := turn_eq_stop.1 ht
    exact hm
  · obtain ⟨hm, _, -, -, rfl⟩ := turn_eq_item.1 ht
    obtain ⟨-, rfl⟩ := fails_of_dispatch hd
    exact hm

namespace SetByExit

variable {mark : State H → Bool}

/-- To take an item from the queue leaves the mark as it is. -/
theorem turn_item (hm : SetByExit mark) (ht : s.turn = .item v t) : mark t = mark s := by
  obtain ⟨-, _, -, -, rfl⟩ := turn_eq_item.1 ht
  exact hm.frame rfl rfl

theorem turn_stop (hm : SetByExit mark) (ht : s.turn = .stop e t) : mark t = mark s := by
  obtain ⟨-, _, _, _, -, -, -, rfl⟩ := turn_eq_stop.1 ht
  exact hm.frame rfl rfl

theorem withStatus (hm : SetByExit mark) (r : Ending H) : mark r.withStatus = mark r.state :=
  hm.frame Ending.withStatus_halted Ending.withStatus_host

/-- A run leaves the mark set exactly if it was so before, or `exit` is carried out in the
    run. -/
theorem runs (hm : SetByExit mark) (h : Runs s log r) :
    mark r.state = true ↔ mark s = true ∨ Exits log := by
  induction h with
  | idle ht => simp [Ending.state]
  | stop ht => simp [Ending.state, hm.turn_stop ht]
  | fail ht hd =>
    obtain ⟨hf, rfl⟩ := fails_of_dispatch hd
    simp [Ending.state, hm.turn_item ht, hf.ne_exit]
  | step ht hd _ ih =>
    rw [ih, hm.carries (carries_of_dispatch hd), hm.turn_item ht, exits_item, or_assoc]
  | refuse ht hd hp _ ih =>
    rw [ih, hm.withStatus, Ending.state, hm.carries (carries_of_dispatch hd), hm.turn_item ht,
      exits_item, exits_refusal, or_assoc]
  | nest ht hd hp hi _ ihi ih =>
    rw [ih, hm.withStatus, hm.settle hi ihi, hm.carries (carries_of_dispatch hd), hm.turn_item ht,
      exits_item, exits_append, or_assoc, or_assoc]

end SetByExit

theorem setByExit_halted : SetByExit (H := H) fun s => s.halted where
  frame h _ := h
  carries h := h.halted_iff
  settle := by
    intro s program log r hi hr
    rw [nested_halted, Bool.false_eq_true, false_or] at hr
    cases r with
    | finished inner =>
      rw [← hr, settle, Ending.state, Ending.state, commit_halted, Bool.or_eq_true, or_comm]
    | stopped e inner =>
      -- A run with `exit` in it is never stopped by a fault afterwards.
      have hn : ¬ Exits log := by
        rw [← hr, Ending.state, hi.not_halted_of_stopped]
        exact Bool.false_ne_true
      simp [settle, Ending.state, hn]

/-- A run leaves its machine halted exactly if it was so before, or `exit` is carried out
    in the run. -/
theorem Runs.halted_iff (h : Runs s log r) :
    r.state.halted = true ↔ s.halted = true ∨ Exits log :=
  setByExit_halted.runs h

/-! ### From the word `exit` on -/

/-- The word `exit` is carried out on every stack. -/
theorem dispatch_exit (s : State H) :
    dispatch (.atom Word.exit.name) s =
      .ok .proceed { s with toMachine := s.toMachine.halt, host := Host.exit s.host } :=
  (Carries.core (Word.ofName?_name .exit) rfl .exit).dispatch_eq

/-- If `exit` is carried out, at whatever level, then this is the last thing that happens. All
    runs end with success at that point, each with the stack of the run inside it and a symbol
    for that one. -/
theorem Happens.exists_runs_exit {level : Nat}
    (h : Happens s level (.item (.atom Word.exit.name) t)) :
    ∃ log s', Runs s (log ++ [.item (.atom Word.exit.name) t]) (.finished s') ∧
      s'.halted = true ∧ s'.queue = [] ∧ s'.host = Host.exit t.host ∧
      s'.stack = List.replicate level .ok ++ t.stack ∧ s'.env = t.env := by
  -- The induction goes outwards: what holds of the run in which `exit` is carried out holds,
  -- with one more symbol, of the run around it, since a halted machine takes no more turns.
  generalize he : Event.item (.atom Word.exit.name) t = event at h ⊢
  induction h with
  | item ht =>
    cases he
    exact ⟨[], _, .step ht (dispatch_exit t) (.idle (turn_eq_idle.2 (.inl rfl))),
      rfl, rfl, rfl, rfl, rfl⟩
  | stop => cases he
  | refuse => cases he
  | @nest _ t _ v _ _ _ _ ht hd hp _ ih =>
    obtain ⟨log, inner, hi, hh, -, hhost, hstack, henv⟩ := ih he
    have hc {s : State H} : (s.commit inner).halted = true := by rw [commit_halted, hh]; rfl
    have hr := Runs.nest ht hd hp hi (.idle (turn_eq_idle.2 (.inl hc)))
    rw [List.append_nil] at hr
    exact ⟨.item v t :: log, _, hr, hc, commit_queue_of_halted hh, commit_host.trans hhost,
      congrArg (Value.ok :: ·) (commit_stack.trans hstack), commit_env.trans henv⟩
  | later hs _ ih =>
    obtain ⟨log, s', hr, hf⟩ := ih he
    obtain ⟨log', hr'⟩ := hs.runs hr
    exact ⟨log' ++ log, s', by rwa [List.append_assoc], hf⟩

/-- A run that ends the program leaves nothing in its queue. -/
theorem Runs.queue_eq_nil_of_halted (h : Runs s log (.finished s')) (hs : s.halted = false)
    (hs' : s'.halted = true) : s'.queue = [] := by
  obtain ⟨t, ht⟩ : Exits log := by simpa [hs] using h.halted_iff.1 hs'
  obtain ⟨level, hx⟩ := h.exists_happens ht
  obtain ⟨log', m, hr, -, hq, -⟩ := hx.exists_runs_exit
  cases (h.unique hr).2
  exact hq

theorem Evaluates.not_exits_of_forall (h : Evaluates source s log r)
    (hn : ∀ level t, ¬ HappensIn source s level (.item (.atom Word.exit.name) t)) :
    ¬ Exits log := by
  rintro ⟨t, ht⟩
  obtain ⟨level, he⟩ := h.mem_log_iff.1 ht
  exact hn level t he

/-- A text that fails has not carried out `exit`. -/
theorem Evaluates.not_exits_of_stopped (h : Evaluates source s log (.stopped e s')) :
    ¬ Exits log := by
  generalize hr : Ending.stopped e s' = r at h
  cases h with
  | refuse => simp
  | @nest _ inner _ _ hi =>
    cases inner with
    | finished t => cases hr
    | stopped e t =>
      intro hx
      have hh := (hi.halted_iff).2 (.inr hx)
      rw [Ending.state, hi.not_halted_of_stopped] at hh
      cases hh

end State

/-! ### What the host is told

A sandbox keeps in mind whether the program has ended. Nothing but the word `exit` tells it. -/

section Sandbox

variable {s s' : State Sandbox} {v : Value} {w : Word} {d : Demand}
  {log : List (Event Sandbox)} {r : Ending Sandbox}

theorem Word.Rewrites.exited_eq {taken pushed : List Value} {h h' : Sandbox}
    (hr : w.Rewrites taken h pushed h') : h'.exited = h.exited := by
  cases hr with
  | load ha | loadFails ha => exact Sandbox.exited_of_load ha
  | command ha | commandFails ha => exact Sandbox.exited_of_command ha
  | write ha | writeFails ha => exact Sandbox.exited_of_save ha
  | _ => rfl

theorem Word.Effect.exited_iff (h : w.Effect s d s') :
    s'.host.exited = true ↔ s.host.exited = true ∨ w = .exit := by
  cases h with
  | rewrite hr =>
    have hw : w ≠ .exit := by cases hr <;> simp
    simp [hr.exited_eq, hw]
  | exit => simp
  | _ => simp

theorem State.Carries.exited_iff (h : Carries v s d s') :
    s'.host.exited = true ↔ s.host.exited = true ∨ v = .atom Word.exit.name := by
  cases h with
  | literal hv => simp [hv]
  | @core name w d s s' hw ha he =>
    rw [he.exited_iff, Value.atom.injEq, ← Word.ofName?_eq_some_iff, hw, Option.some.injEq]
  | @bound name q s hw =>
    rw [Value.atom.injEq, ← Word.ofName?_eq_some_iff, hw]
    simp

namespace State

theorem setByExit_exited : SetByExit fun s : State Sandbox => s.host.exited where
  frame _ h := congrArg Sandbox.exited h
  carries h := h.exited_iff
  settle _ hr := by rwa [settle_host]

/-- A sandbox is told that the program has ended exactly if `exit` is carried out in a run. -/
theorem Runs.exited_iff (h : Runs s log r) :
    r.state.host.exited = true ↔ s.host.exited = true ∨ Exits log :=
  setByExit_exited.runs h

variable {source : String}

/-- Where `exit` is not carried out, a text leaves the host untold and the machine as halted
    as it was. -/
theorem Evaluates.not_exited (h : Evaluates source s log r) (hx : ¬ Exits log)
    (hs : s.host.exited = false) :
    r.state.host.exited = false ∧ r.state.halted = s.halted := by
  cases h with
  | refuse => exact ⟨hs, rfl⟩
  | nest hp hi =>
    constructor
    · rw [Bool.eq_false_iff, Ne, setByExit_exited.settle hi hi.exited_iff, hs]
      simpa using hx
    · rw [Bool.eq_iff_iff, setByExit_halted.settle hi hi.halted_iff]
      simp [hx]

/-- The word `exit` is final at every depth. If it is carried out for a text, inside of
    however many words `eval`, it is the last item of all: the text succeeds, the machine is
    halted and left without a queue, the host is told and asked for nothing else, and the stack
    and the environment are those of the innermost run, with one symbol for each of these words.
    If it is not carried out, or the text fails, then the host is not told, and the machine is
    as halted as it was. -/
theorem evaluate_exit (source : String) (s : State Sandbox) (hs : s.host.exited = false) :
    (∀ level t, HappensIn source s level (.item (.atom Word.exit.name) t) →
      t.depth = s.depth + 1 + level ∧
      ∃ log s', Evaluates source s (log ++ [.item (.atom Word.exit.name) t]) (.finished s') ∧
        (∀ fuel, itemCount log + 1 < fuel → evaluate fuel source s = some (.finished s')) ∧
        s'.halted = true ∧ s'.queue = [] ∧ s'.host = Host.exit t.host ∧
        s'.host.exited = true ∧ s'.stack = List.replicate level .ok ++ t.stack ∧
        s'.env = t.env) ∧
      ∀ fuel r, evaluate fuel source s = some r →
        ((∃ e s', r = .stopped e s') ∨
          ∀ level t, ¬ HappensIn source s level (.item (.atom Word.exit.name) t)) →
        r.state.host.exited = false ∧ r.state.halted = s.halted := by
  constructor
  · intro level t h
    cases h with
    | nest hp h =>
      obtain ⟨log, inner, hi, hh, -, hhost, hstack, henv⟩ := h.exists_runs_exit
      have he := Evaluates.nest hp hi
      refine ⟨h.depth_eq, log, s.commit inner, he, fun fuel hf => he.evaluate_eq ?_, ?_,
        commit_queue_of_halted hh, commit_host.trans hhost, ?_, commit_stack.trans hstack,
        commit_env.trans henv⟩
      · rwa [itemCount_append, itemCount_item, itemCount_nil, Nat.zero_add]
      · rw [commit_halted, hh, Bool.true_or]
      · rw [commit_host, hhost, Sandbox.exited_exit]
  · intro fuel r h hn
    obtain ⟨log, he⟩ := exists_evaluates_of_evaluate h
    refine he.not_exited ?_ hs
    rcases hn with ⟨e, s', rfl⟩ | hn
    · exact he.not_exits_of_stopped
    · exact he.not_exits_of_forall hn

/-- A text that ends the program from within a text that it evaluates. -/
theorem evaluate_exit_nested :
    ∃ s s' t : State Sandbox, s.host.exited = false ∧
      HappensIn ":a 'exit :b' eval :c" s 1 (.item (.atom Word.exit.name) t) ∧
      (∃ fuel, evaluate fuel ":a 'exit :b' eval :c" s = some (.finished s')) ∧ s'.halted = true ∧
      s'.host.exited = true ∧ s'.stack = [.ok, .sym "a"] := by
  have hp : Parser.parse Parser.defaultDepth ":a 'exit :b' eval :c" =
      .ok [.sym "a", .str "exit :b", .atom "eval", .sym "c"] := by
    with_unfolding_all rfl
  have hp' : Parser.parse Parser.defaultDepth "exit :b" = .ok [.atom "exit", .sym "b"] := by
    with_unfolding_all rfl
  have h : HappensIn (H := Sandbox) ":a 'exit :b' eval :c" { host := {} } 1
      (.item (.atom Word.exit.name) _) :=
    .nest (programOf_eq_ok.2 ⟨show 0 < 64 by decide, hp⟩)
      (.later (.of_meets rfl rfl .proceed) (.later (.of_meets rfl rfl .proceed)
        (.nest rfl rfl (programOf_eq_ok.2 ⟨show 1 < 64 by decide, hp'⟩) (.item rfl))))
  obtain ⟨-, log, s', -, hf, hh, -, -, hx, hs, -⟩ := (evaluate_exit _ _ rfl).1 1 _ h
  exact ⟨_, s', _, rfl, h, ⟨_, hf (itemCount log + 2) (Nat.lt_succ_self _)⟩, hh, hx, hs⟩

end State

end Sandbox

end Catena
