import Catena.Proofs.Occurrence

/-!
# Runs side by side

Two machines that carry out the same items stay related for as long as each turn keeps the
relation. What a turn has to keep is listed in `State.Simulation`, which also names the events
that the relation can bear: it speaks only of runs in which nothing else happens. All runs
that are nested in the two are then side by side as well, and so are their endings.

* `State.Simulation.proceed_rel`, `State.Simulation.evaluate_rel`: with the same fuel both
  runs end alike, or neither of them has ended.
-/

namespace Catena

variable {H : Type}

/-- Two runs end in the same way, for the same cause, in related states. -/
inductive Ending.Rel (R : State H → State H → Prop) : Ending H → Ending H → Prop
  | finished {s t} : R s t → Rel R (.finished s) (.finished t)
  | stopped {e s t} : R s t → Rel R (.stopped e s) (.stopped e t)

theorem Ending.Rel.mono {R R' : State H → State H → Prop} {r r' : Ending H} (h : r.Rel R r')
    (hR : ∀ s t, R s t → R' s t) : r.Rel R' r' := by
  cases h with
  | finished h => exact .finished (hR _ _ h)
  | stopped h => exact .stopped (hR _ _ h)

section Option

variable {R : State H → State H → Prop} {x y : Option (Ending H)} {r r' : Ending H}

theorem Ending.rel_mono_option {R' : State H → State H → Prop}
    (h : Option.Rel (Ending.Rel R) x y) (hR : ∀ s t, R s t → R' s t) :
    Option.Rel (Ending.Rel R') x y := by
  cases h with
  | none => exact .none
  | some h => exact .some (h.mono hR)

theorem Ending.exists_rel_right (h : Option.Rel (Ending.Rel R) x y) (hx : x = some r) :
    ∃ r', y = some r' ∧ r.Rel R r' := by
  subst hx
  cases h with
  | some h => exact ⟨_, rfl, h⟩

theorem Ending.exists_rel_left (h : Option.Rel (Ending.Rel R) x y) (hy : y = some r') :
    ∃ r, x = some r ∧ r.Rel R r' := by
  subst hy
  cases h with
  | some h => exact ⟨_, rfl, h⟩

theorem Ending.exists_finished_right {s : State H} (h : Option.Rel (Ending.Rel R) x y)
    (hx : x = some (.finished s)) : ∃ t, y = some (.finished t) ∧ R s t := by
  obtain ⟨r', rfl, hr⟩ := Ending.exists_rel_right h hx
  cases hr with
  | finished hr => exact ⟨_, rfl, hr⟩

end Option

namespace State

/-- A relation between states that runs keep which go on side by side, as long as nothing
    happens in the first of them that is not allowed. -/
structure Simulation [Host H] (R : State H → State H → Prop) (Allowed : Event H → Prop) :
    Prop where
  idle {s t} : R s t → s.turn = .idle → t.turn = .idle
  stop {s t s' e} : R s t → s.turn = .stop e s' → Allowed (.refusal e s') →
    ∃ t', t.turn = .stop e t' ∧ R s' t'
  item {s t s' v} : R s t → s.turn = .item v s' → ∃ t', t.turn = .item v t' ∧ R s' t'
  dispatch_ok {s t s' v d} : R s t → Allowed (.item v s) → dispatch v s = .ok d s' →
    ∃ t', dispatch v t = .ok d t' ∧ R s' t'
  dispatch_error {s t s' v e} : R s t → Allowed (.item v s) → dispatch v s = .error e s' →
    ∃ t', dispatch v t = .error e t' ∧ R s' t'
  refuse {s t source e} : R s t → s.programOf source = .error e → Allowed (.refusal e s) →
    t.programOf source = .error e
  nest {s t source program} : R s t → s.programOf source = .ok program →
    t.programOf source = .ok program ∧ R (s.nested program) (t.nested program)
  settle {s t r r'} : R s t → r.Rel R r' → (s.settle r).Rel R (t.settle r')
  push {s t : State H} (v : Value) : R s t →
    R { s with stack := v :: s.stack } { t with stack := v :: t.stack }

namespace Simulation

variable [Host H] {R : State H → State H → Prop} {Allowed : Event H → Prop} {s t : State H}
  {fuel : Nat} {source : String} {v : Value} {r r' : Ending H}

theorem withStatus (hR : Simulation R Allowed) (h : r.Rel R r') :
    R r.withStatus r'.withStatus := by
  cases h with
  | finished h => exact hR.push .ok h
  | stopped h => exact hR.push .notOk h

/-- Texts are run side by side if programs are. -/
theorem evaluate_rel_of_proceed (hR : Simulation R Allowed) (h : R s t)
    (hs : ∀ level event, HappensIn source s level event → Allowed event)
    (hp : ∀ program, (∀ level event, Happens (s.nested program) level event → Allowed event) →
      R (s.nested program) (t.nested program) →
      Option.Rel (Ending.Rel R) (proceed fuel (s.nested program))
        (proceed fuel (t.nested program))) :
    Option.Rel (Ending.Rel R) (evaluate fuel source s) (evaluate fuel source t) := by
  cases hs' : s.programOf source with
  | error e =>
    rw [evaluate_of_error hs', evaluate_of_error (hR.refuse h hs' (hs _ _ (.refuse hs')))]
    exact .some (.stopped h)
  | ok program =>
    obtain ⟨ht', hn⟩ := hR.nest h hs'
    rw [evaluate_of_ok hs', evaluate_of_ok ht']
    have hrel := hp program (fun level event he => hs _ _ (.nest hs' he)) hn
    generalize proceed fuel (s.nested program) = x at hrel
    generalize proceed fuel (t.nested program) = y at hrel
    cases hrel with
    | none => exact .none
    | some hr => exact .some (hR.settle h hr)

/-- Items are carried out side by side if texts are run so. -/
theorem carryOut_rel_of_evaluate (hR : Simulation R Allowed) (h : R s t)
    (hs : Allowed (.item v s))
    (he : ∀ source u u', dispatch v s = .ok (.evaluate source) u → R u u' →
      Option.Rel (Ending.Rel R) (evaluate fuel source u) (evaluate fuel source u')) :
    Option.Rel (Ending.Rel R) (carryOut fuel v s) (carryOut fuel v t) := by
  cases hd : dispatch v s with
  | error e u =>
    obtain ⟨u', hd', hu⟩ := hR.dispatch_error h hs hd
    rw [carryOut_of_error hd, carryOut_of_error hd']
    exact .some (.stopped hu)
  | ok d u =>
    obtain ⟨u', hd', hu⟩ := hR.dispatch_ok h hs hd
    cases d with
    | proceed =>
      rw [carryOut_of_proceed hd, carryOut_of_proceed hd']
      exact .some (.finished hu)
    | evaluate source =>
      rw [carryOut_of_evaluate hd, carryOut_of_evaluate hd']
      have hrel := he source u u' hd hu
      generalize evaluate fuel source u = x at hrel
      generalize evaluate fuel source u' = y at hrel
      cases hrel with
      | none => exact .none
      | some hr => exact .some (.finished (hR.withStatus hr))

/-- Runs that start side by side end side by side. -/
theorem proceed_rel (hR : Simulation R Allowed) (h : R s t)
    (hs : ∀ level event, Happens s level event → Allowed event) (fuel : Nat) :
    Option.Rel (Ending.Rel R) (proceed fuel s) (proceed fuel t) := by
  -- The induction hypothesis is used twice: for the program that an item may run, and for the
  -- rest of the queue behind that item.
  induction fuel generalizing s t with
  | zero => exact .none
  | succ fuel ih =>
    cases hs' : s.turn with
    | idle =>
      rw [proceed_of_idle hs', proceed_of_idle (hR.idle h hs')]
      exact .some (.finished h)
    | stop e u =>
      obtain ⟨u', ht', hu⟩ := hR.stop h hs' (hs _ _ (.stop hs'))
      rw [proceed_of_stop hs', proceed_of_stop ht']
      exact .some (.stopped hu)
    | item v u =>
      obtain ⟨u', ht', hu⟩ := hR.item h hs'
      rw [proceed_of_item hs', proceed_of_item ht']
      have hrel : Option.Rel (Ending.Rel R) (carryOut fuel v u) (carryOut fuel v u') :=
        hR.carryOut_rel_of_evaluate hu (hs _ _ (.item hs')) fun source m m' hd hm =>
          hR.evaluate_rel_of_proceed hm (fun level event he => hs _ _ (.of_text hs' hd he))
            fun program hp hn => ih hn hp
      generalize hx : carryOut fuel v u = x at hrel
      generalize carryOut fuel v u' = y at hrel
      cases hrel with
      | none => exact .none
      | some hr =>
        cases hr with
        | stopped hr => exact .some (.stopped hr)
        | finished hr =>
          exact ih hr fun level event he => hs _ _ (.later ⟨v, u, fuel, hs', hx⟩ he)

/-- Texts that start side by side end side by side. -/
theorem evaluate_rel (hR : Simulation R Allowed) (h : R s t)
    (hs : ∀ level event, HappensIn source s level event → Allowed event) (fuel : Nat) :
    Option.Rel (Ending.Rel R) (evaluate fuel source s) (evaluate fuel source t) :=
  hR.evaluate_rel_of_proceed h hs fun _ hp hn => hR.proceed_rel hn hp fuel

end Simulation

end State

end Catena
