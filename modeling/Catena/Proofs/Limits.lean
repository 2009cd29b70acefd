import Catena.Host.Sandbox
import Catena.Proofs.Simulation

/-!
# Limits only cut runs off

No item looks at the limits, at the depth or at the count of its machine. So two machines that
agree in all else (`State.Agree`) run side by side, at whatever depths and with whatever counts,
until one of them is at a limit (`State.simulation_beside`).

* `State.evaluate_agree_of_limits_le`: a text that meets no limit has the same outcome under
  all limits that are wider;
* `State.proceed_agree_of_unlimited`, `State.proceed_agree_of_le_depth`: without a limit on the
  number of items, the count with which a run starts does not matter, nor does the depth, if
  the run does not meet its limit.
-/

namespace Catena

variable {H : Type}

/-- The causes that lie in a limit. -/
inductive Fault.IsLimit : Fault → Prop
  | steps {limit} : IsLimit (.stepLimit limit)
  | depth {limit} : IsLimit (.depthLimit limit)

/-- Limits are ordered by what they let pass: without a limit on the number of items, it is as
    if that were infinite. -/
instance : LE Limits where
  le l l' := (∀ n', l'.steps = some n' → ∃ n, l.steps = some n ∧ n ≤ n') ∧ l.depth ≤ l'.depth

theorem Limits.le_refl (l : Limits) : l ≤ l :=
  ⟨fun n h => ⟨n, h, Nat.le_refl n⟩, Nat.le_refl l.depth⟩

/-! ### States that agree -/

namespace State

/-- Two states are the same but for limits, depth and count. -/
structure Agree (s t : State H) : Prop where
  stack : t.stack = s.stack
  queue : t.queue = s.queue
  env : t.env = s.env
  halted : t.halted = s.halted
  host : t.host = s.host

/-- The state with other limits, at another depth and with another count. -/
def placed (s : State H) (limits : Limits) (depth steps : Nat) : State H :=
  { s with limits := limits, depth := depth, steps := steps }

variable {s t : State H} {l l' : Limits} {n k : Nat}

theorem Agree.eq_placed (h : Agree s t) : t = s.placed t.limits t.depth t.steps := by
  obtain ⟨⟨stack, queue, env, limits, halted, depth, steps⟩, host⟩ := t
  obtain ⟨hs, hq, he, hh, ho⟩ := h
  dsimp only at hs hq he hh ho
  subst hs hq he hh ho
  rfl

theorem Agree.symm (h : Agree s t) : Agree t s :=
  ⟨h.stack.symm, h.queue.symm, h.env.symm, h.halted.symm, h.host.symm⟩

theorem Agree.trans {u : State H} (h : Agree s t) (h' : Agree t u) : Agree s u :=
  ⟨h'.stack.trans h.stack, h'.queue.trans h.queue, h'.env.trans h.env,
    h'.halted.trans h.halted, h'.host.trans h.host⟩

theorem agree_placed (s : State H) (l : Limits) (k n : Nat) : Agree s (s.placed l k n) :=
  ⟨rfl, rfl, rfl, rfl, rfl⟩

end State

section Placed

variable [Host H] {s s' t : State H} {l : Limits} {k n : Nat} {v : Value} {w : Word}
  {d : Demand} {e : Fault}

/-- No core word looks at the limits, the depth or the count. -/
theorem Word.Effect.placed (h : w.Effect s d s') (l : Limits) (k n : Nat) :
    w.Effect (s.placed l k n) d (s'.placed l k n) := by
  cases h with
  | rewrite hr hs => exact .rewrite (s := State.placed _ l k n) hr hs
  | printStack => exact .printStack
  | call hs ha => exact .call (s := State.placed _ l k n) hs ha
  | callFails hs ha => exact .callFails (s := State.placed _ l k n) hs ha
  | select hs ha => exact .select (s := State.placed _ l k n) hs ha
  | selectNone hs ha => exact .selectNone (s := State.placed _ l k n) hs ha
  | define hs => exact .define (s := State.placed _ l k n) hs
  | eval hs => exact .eval (s := State.placed _ l k n) hs
  | exit => exact .exit

/-- No item looks at the limits, the depth or the count. -/
theorem State.Carries.placed (h : Carries v s d s') (l : Limits) (k n : Nat) :
    Carries v (s.placed l k n) d (s'.placed l k n) := by
  cases h with
  | literal hv => exact .literal hv
  | core hw ha he => exact .core hw ha (he.placed l k n)
  | bound hw hq => exact .bound (s := State.placed _ l k n) hw hq

omit [Host H] in
theorem State.Fails.placed (h : Fails v s e) (l : Limits) (k n : Nat) :
    Fails v (s.placed l k n) e := by
  cases h with
  | mismatch hw ha => exact .mismatch (s := State.placed _ l k n) hw ha
  | unknownWord hw hq => exact .unknownWord (s := State.placed _ l k n) hw hq

end Placed

/-! ### Machines side by side -/

namespace State

/-- Two states agree, the first of them some levels deeper than the second and under limits of
    its own. If the second has a limit on the number of items, both are equally deep and have
    the same count. -/
structure Beside (l l' : Limits) (shift : Nat) (s t : State H) : Prop extends Agree s t where
  limits : s.limits = l
  limits' : t.limits = l'
  depth : s.depth = t.depth + shift
  steps : l'.steps = none ∨ shift = 0 ∧ t.steps = s.steps

/-- What may happen in the first of two machines that run side by side: it may meet a limit only
    if the second is equally deep and has the same limits. -/
def Bearable (l l' : Limits) (shift : Nat) : Event H → Prop
  | .item _ _ => True
  | .refusal e _ => e.IsLimit → l' = l ∧ shift = 0

variable {l l' : Limits} {shift : Nat} {s s' t t' : State H} {v : Value} {e : Fault}
  {source : String} {program : List Value} {r r' : Ending H}

theorem bearable_of_not_isLimit {event : Event H}
    (h : ∀ e t, event = .refusal e t → ¬ e.IsLimit) : Bearable l l' shift event := by
  cases event with
  | item => trivial
  | refusal e t => exact fun he => absurd he (h e t rfl)

namespace Beside

theorem turn_idle (h : Beside l l' shift s t) (hs : s.turn = .idle) : t.turn = .idle := by
  rw [turn_eq_idle] at hs ⊢
  rwa [h.halted, h.queue]

theorem turn_stop (h : Beside l l' shift s t) (hs : s.turn = .stop e s')
    (ha : Bearable l l' shift (.refusal e s')) :
    ∃ t', t.turn = .stop e t' ∧ Beside l l' shift s' t' := by
  obtain ⟨hh, v, rest, limit, hq, hm, rfl, rfl⟩ := turn_eq_stop.1 hs
  obtain ⟨hl, hn⟩ := reachedLimit?_eq_some.1 hm
  obtain ⟨rfl, -⟩ := ha .steps
  rw [h.limits] at hl
  have hsteps : t.steps = s.steps := by
    rcases h.steps with hnone | ⟨-, hsteps⟩
    · rw [hl] at hnone
      cases hnone
    · exact hsteps
  refine ⟨{ t with queue := rest }, turn_eq_stop.2 ⟨h.halted.trans hh, v, rest, limit,
    h.queue.trans hq, reachedLimit?_eq_some.2 ⟨?_, hn.trans_eq hsteps.symm⟩, rfl, rfl⟩, ?_⟩
  · rw [h.limits', hl]
  · exact { h with queue := rfl }

theorem reachedLimit?_eq_none (h : Beside l l' shift s t) (hl : l ≤ l')
    (hs : s.reachedLimit? = none) : t.reachedLimit? = none := by
  -- If the second machine were at its limit, then so would be the first, which has the same
  -- count and no wider a limit.
  rw [Option.eq_none_iff_forall_ne_some]
  intro n' ht
  obtain ⟨hn', hle⟩ := reachedLimit?_eq_some.1 ht
  rw [h.limits'] at hn'
  rcases h.steps with hnone | ⟨-, hsteps⟩
  · rw [hnone] at hn'
    cases hn'
  · obtain ⟨n, hn, hnn⟩ := hl.1 n' hn'
    rw [← h.limits] at hn
    rw [reachedLimit?_eq_some.2 ⟨hn, hnn.trans (hle.trans_eq hsteps)⟩] at hs
    cases hs

theorem turn_item (h : Beside l l' shift s t) (hl : l ≤ l') (hs : s.turn = .item v s') :
    ∃ t', t.turn = .item v t' ∧ Beside l l' shift s' t' := by
  obtain ⟨hh, rest, hq, hm, rfl⟩ := turn_eq_item.1 hs
  refine ⟨{ t with queue := rest, steps := t.steps + 1 }, turn_eq_item.2 ⟨h.halted.trans hh, rest,
    h.queue.trans hq, h.reachedLimit?_eq_none hl hm, rfl⟩, ?_⟩
  exact { h with
    queue := rfl
    steps := h.steps.imp_right fun ⟨hd, hsteps⟩ => ⟨hd, congrArg (· + 1) hsteps⟩ }

theorem programOf_eq_error (h : Beside l l' shift s t) (hl : l ≤ l')
    (hs : s.programOf source = .error e) (ha : Bearable l l' shift (.refusal e s)) :
    t.programOf source = .error e := by
  rw [State.programOf_eq_error] at hs ⊢
  rcases hs with ⟨hd, rfl⟩ | ⟨hd, hp⟩
  · obtain ⟨rfl, rfl⟩ := ha .depth
    refine .inl ⟨?_, ?_⟩
    · rwa [h.limits', ← h.limits, ← Nat.add_zero t.depth, ← h.depth]
    · rw [h.limits', h.limits]
  · refine .inr ⟨?_, hp⟩
    have := hl.2
    rw [h.limits, h.depth] at hd
    rw [h.limits']
    omega

theorem programOf_eq_ok (h : Beside l l' shift s t) (hl : l ≤ l')
    (hs : s.programOf source = .ok program) : t.programOf source = .ok program := by
  rw [State.programOf_eq_ok] at hs ⊢
  refine ⟨?_, hs.2⟩
  have hd := hs.1
  have := hl.2
  rw [h.limits, h.depth] at hd
  rw [h.limits']
  omega

theorem nested (h : Beside l l' shift s t) (program : List Value) :
    Beside l l' shift (s.nested program) (t.nested program) where
  stack := h.stack
  queue := rfl
  env := h.env
  halted := rfl
  host := h.host
  limits := h.limits
  limits' := h.limits'
  depth := by rw [nested_depth, nested_depth, h.depth, Nat.add_right_comm]
  steps := h.steps.imp_right fun ⟨hd, hsteps⟩ => ⟨hd, by
    have hk : s.depth = t.depth := by rw [h.depth, hd, Nat.add_zero]
    simp only [State.nested, hk, hsteps]⟩

theorem rollback {i j : State H} (h : Beside l l' shift s t) (hi : Beside l l' shift i j) :
    Beside l l' shift (s.rollback i) (t.rollback j) where
  stack := h.stack
  queue := h.queue
  env := h.env
  halted := h.halted
  host := hi.host
  limits := h.limits
  limits' := h.limits'
  depth := h.depth
  steps := by
    rcases h.steps with hnone | ⟨hd, hsteps⟩
    · exact .inl hnone
    rcases hi.steps with hnone | ⟨-, hj⟩
    · exact .inl hnone
    have hk : s.depth = t.depth := by rw [h.depth, hd, Nat.add_zero]
    exact .inr ⟨hd, by simp only [State.rollback, hk, hsteps, hj]⟩

theorem commit {i j : State H} (h : Beside l l' shift s t) (hi : Beside l l' shift i j) :
    Beside l l' shift (s.commit i) (t.commit j) := by
  rw [commit_eq, commit_eq]
  exact { h.rollback hi with
    stack := hi.stack
    queue := by simp only [h.queue, hi.halted]
    env := hi.env
    halted := by simp only [h.halted, hi.halted] }

theorem settle (h : Beside l l' shift s t) (hr : r.Rel (Beside l l' shift) r') :
    (s.settle r).Rel (Beside l l' shift) (t.settle r') := by
  cases hr with
  | finished hi => exact .finished (h.commit hi)
  | stopped hi => exact .stopped (h.rollback hi)

theorem push (h : Beside l l' shift s t) (v : Value) :
    Beside l l' shift { s with stack := v :: s.stack } { t with stack := v :: t.stack } :=
  { h with stack := congrArg (v :: ·) h.stack }

end Beside

variable [Host H] {d : Demand}

theorem Beside.dispatch_ok (h : Beside l l' shift s t) (hs : dispatch v s = .ok d s') :
    ∃ t', dispatch v t = .ok d t' ∧ Beside l l' shift s' t' := by
  have hc := carries_of_dispatch hs
  obtain ⟨hl, hk, hn⟩ := hc.frame
  refine ⟨s'.placed t.limits t.depth t.steps, (congrArg (dispatch v) h.eq_placed).trans
    (hc.placed t.limits t.depth t.steps).dispatch_eq, ?_⟩
  exact { agree_placed s' _ _ _ with
    limits := hl.trans h.limits
    limits' := h.limits'
    depth := hk.trans h.depth
    steps := h.steps.imp_right fun ⟨hd, hsteps⟩ => ⟨hd, hsteps.trans hn.symm⟩ }

theorem Beside.dispatch_error (h : Beside l l' shift s t) (hs : dispatch v s = .error e s') :
    ∃ t', dispatch v t = .error e t' ∧ Beside l l' shift s' t' := by
  obtain ⟨hf, rfl⟩ := fails_of_dispatch hs
  refine ⟨t, ?_, h⟩
  rw [h.eq_placed]
  exact (hf.placed t.limits t.depth t.steps).dispatch_eq

/-- Machines that agree run side by side under limits that are no narrower for the second. -/
theorem simulation_beside (hl : l ≤ l') :
    Simulation (H := H) (Beside l l' shift) (Bearable l l' shift) where
  idle := Beside.turn_idle
  stop := Beside.turn_stop
  item h := h.turn_item hl
  dispatch_ok h _ := h.dispatch_ok
  dispatch_error h _ := h.dispatch_error
  refuse h := h.programOf_eq_error hl
  nest h hs := ⟨h.programOf_eq_ok hl hs, h.nested _⟩
  settle := Beside.settle
  push v h := h.push v

/-! ### Wider limits -/

/-- A text that meets no limit, at whatever level of nesting, has the same outcome under all
    limits that are wider: it succeeds, fails for the same cause or goes on for ever as before,
    and leaves the machine and the host in the same state. -/
theorem evaluate_agree_of_limits_le (source : String) (s : State H) (hl : s.limits ≤ l')
    (hf : ∀ level e t, HappensIn source s level (.refusal e t) → ¬ e.IsLimit) (fuel : Nat) :
    Option.Rel (Ending.Rel Agree) (evaluate fuel source s)
      (evaluate fuel source { s with limits := l' }) := by
  have hb : Beside s.limits l' 0 s { s with limits := l' } :=
    { agree_placed s l' s.depth s.steps with
      limits := rfl, limits' := rfl, depth := rfl, steps := .inr ⟨rfl, rfl⟩ }
  have hbear : ∀ level event, HappensIn source s level event → Bearable s.limits l' 0 event :=
    fun level event he => bearable_of_not_isLimit fun e t h => hf level e t (h ▸ he)
  exact Ending.rel_mono_option ((simulation_beside hl).evaluate_rel hb hbear fuel)
    fun _ _ h => h.toAgree

/-- A text that evaluates another, with no more items and levels than it may have, and with
    more of them to spare. -/
theorem evaluate_agree_of_limits_le_nested :
    ∃ s s' t' : State Sandbox, s.limits = { steps := some 3, depth := 2 } ∧
      s.limits ≤ { steps := none, depth := 64 } ∧
      evaluate 4 "':a' eval" s = some (.finished s') ∧
      evaluate 4 "':a' eval" { s with limits := { steps := none, depth := 64 } } =
        some (.finished t') ∧ Agree s' t' := by
  have hp : Parser.parse Parser.defaultDepth "':a' eval" = .ok [.str ":a", .atom "eval"] := by
    with_unfolding_all rfl
  have hp' : Parser.parse Parser.defaultDepth ":a" = .ok [.sym "a"] := by
    with_unfolding_all rfl
  have hl : ({ steps := some 3, depth := 2 } : Limits) ≤ { steps := none, depth := 64 } :=
    ⟨nofun, by decide⟩
  let s : State Sandbox := { limits := { steps := some 3, depth := 2 }, host := {} }
  have hr : Evaluates "':a' eval" s _ _ := .nest (programOf_eq_ok.2 ⟨show 0 < 2 by decide, hp⟩)
    (.step rfl rfl (.nest rfl rfl (programOf_eq_ok.2 ⟨show 1 < 2 by decide, hp'⟩)
      (.step rfl rfl (.idle rfl)) (.idle rfl)))
  have he : evaluate 4 "':a' eval" s = _ := hr.evaluate_eq (Nat.lt_succ_self 3)
  -- Whatever is refused stands in the log, which tells of three items only.
  have hf : ∀ level e t, HappensIn "':a' eval" s level (.refusal e t) → ¬ e.IsLimit := by
    intro level e t hx
    have hm := hr.mem_log_iff.2 ⟨level, hx⟩
    simp at hm
  obtain ⟨t', ht', ha⟩ :=
    Ending.exists_finished_right (evaluate_agree_of_limits_le _ s hl hf 4) he
  exact ⟨s, _, t', rfl, hl, he, ht', ha⟩

/-! ### Runs without a limit on the number of items -/

/-- Without a limit on the number of items, machines that agree end alike, whatever their
    counts are. -/
theorem proceed_agree_of_unlimited (h : Agree s t) (hl : t.limits = s.limits)
    (hk : t.depth = s.depth) (hn : s.limits.steps = none) (fuel : Nat) :
    Option.Rel (Ending.Rel Agree) (proceed fuel s) (proceed fuel t) := by
  have hb : Beside s.limits s.limits 0 s t :=
    { h with limits := rfl, limits' := hl, depth := hk.symm, steps := .inl hn }
  have hbear : ∀ event, Bearable (H := H) s.limits s.limits 0 event := by
    rintro (_ | _)
    · trivial
    · exact fun _ => ⟨rfl, rfl⟩
  exact Ending.rel_mono_option ((simulation_beside s.limits.le_refl).proceed_rel hb
    (fun _ event _ => hbear event) fuel) fun _ _ h => h.toAgree

/-- In such a run only the limit on the depth can be met. -/
theorem Runs.not_isLimit_of_happens {log : List (Event H)} {level : Nat} (h : Runs s log r)
    (hn : s.limits.steps = none) (hx : ∀ limit t, Event.refusal (.depthLimit limit) t ∉ log)
    (he : Happens s level (.refusal e t)) : ¬ e.IsLimit := by
  rintro (_ | _)
  · have hsteps := he.steps_of_stepLimit
    rw [hn] at hsteps
    cases hsteps
  · exact hx _ t (h.mem_log_iff.2 ⟨level, he⟩)

/-- If it is not met, machines that agree end alike even if the second is less deep. -/
theorem proceed_agree_of_le_depth (h : Agree s t) (hl : t.limits = s.limits)
    (hk : s.depth = t.depth + shift) (hn : s.limits.steps = none)
    (hf : ∀ level e u, Happens s level (.refusal e u) → ¬ e.IsLimit) (fuel : Nat) :
    Option.Rel (Ending.Rel Agree) (proceed fuel s) (proceed fuel t) := by
  have hb : Beside s.limits s.limits shift s t :=
    { h with limits := rfl, limits' := hl, depth := hk, steps := .inl hn }
  have hbear : ∀ level event, Happens s level event → Bearable s.limits s.limits shift event :=
    fun level event he => bearable_of_not_isLimit fun e u h => hf level e u (h ▸ he)
  exact Ending.rel_mono_option ((simulation_beside s.limits.le_refl).proceed_rel hb hbear fuel)
    fun _ _ h => h.toAgree

end State

end Catena
