import Catena.Proofs.Simulation

/-!
# Machines in lockstep

Two machines are in lockstep if they have the same control: the same queue, limits, depth and
count, and both or neither of them have been halted. What their items work on may differ, their
stacks, environments and hosts being related in some way each (`State.Lockstep`).

Only the control decides what comes next, and a transaction hands over stack, environment and
host as wholes. So of the nine things that a simulation has to keep, six hold whatever the three
relations are; what is left is a matter of single words (`State.Congruence`).

* `State.Congruence.simulation`: machines in lockstep run side by side if every core word keeps
  them so.
-/

namespace Catena

variable {H : Type}

namespace State

/-- Two states with the same control, and with related stacks, environments and hosts. -/
structure Lockstep (S : List Value → List Value → Prop) (E : Environment → Environment → Prop)
    (O : H → H → Prop) (s t : State H) : Prop where
  stack : S s.stack t.stack
  env : E s.env t.env
  host : O s.host t.host
  queue : t.queue = s.queue
  limits : t.limits = s.limits
  halted : t.halted = s.halted
  depth : t.depth = s.depth
  steps : t.steps = s.steps

variable {S : List Value → List Value → Prop} {E : Environment → Environment → Prop}
  {O : H → H → Prop}

namespace Lockstep

variable {s s' t : State H} {v : Value} {e : Fault} {source : String} {program : List Value}
  {r r' : Ending H}

/-- The second state is the first one but for what the items work on. -/
theorem eq_with (h : Lockstep S E O s t) :
    t = { s with stack := t.stack, env := t.env, host := t.host } := by
  obtain ⟨⟨stack, queue, env, limits, halted, depth, steps⟩, host⟩ := t
  obtain ⟨-, -, -, hq, hl, hh, hd, hn⟩ := h
  dsimp only at hq hl hh hd hn
  subst hq hl hh hd hn
  rfl

/-- The queue and the mark of a halted machine decide whether anything is left to be done. -/
theorem turn_idle (h : Lockstep S E O s t) (hs : s.turn = .idle) : t.turn = .idle := by
  rw [turn_eq_idle] at hs ⊢
  rwa [h.halted, h.queue]

/-- Machines in lockstep reach the step limit at the same item. -/
theorem reachedLimit? (h : Lockstep S E O s t) : t.reachedLimit? = s.reachedLimit? := by
  rw [Machine.reachedLimit?, Machine.reachedLimit?, h.limits, h.steps]

/-- If the one machine is stopped by its limit, so is the other. -/
theorem turn_stop (h : Lockstep S E O s t) (hs : s.turn = .stop e s') :
    ∃ t', t.turn = .stop e t' ∧ Lockstep S E O s' t' := by
  obtain ⟨hh, v, rest, limit, hq, hm, rfl, rfl⟩ := turn_eq_stop.1 hs
  refine ⟨{ t with queue := rest }, turn_eq_stop.2 ⟨h.halted.trans hh, v, rest, limit,
    h.queue.trans hq, h.reachedLimit?.trans hm, rfl, rfl⟩, ?_⟩
  exact { h with queue := rfl }

/-- The same item comes next on both machines. -/
theorem turn_item (h : Lockstep S E O s t) (hs : s.turn = .item v s') :
    ∃ t', t.turn = .item v t' ∧ Lockstep S E O s' t' := by
  obtain ⟨hh, rest, hq, hm, rfl⟩ := turn_eq_item.1 hs
  refine ⟨{ t with queue := rest, steps := t.steps + 1 }, turn_eq_item.2 ⟨h.halted.trans hh, rest,
    h.queue.trans hq, h.reachedLimit?.trans hm, rfl⟩, ?_⟩
  exact { h with queue := rfl, steps := congrArg (· + 1) h.steps }

/-- A text is refused by both machines or by none, as only limits and depth decide on it. -/
theorem programOf_eq (h : Lockstep S E O s t) (source : String) :
    t.programOf source = s.programOf source := by
  rw [programOf, programOf, h.limits, h.depth]

/-- The same program on both machines is run in lockstep. -/
theorem nested (h : Lockstep S E O s t) (program : List Value) :
    Lockstep S E O (s.nested program) (t.nested program) :=
  { h with
    queue := rfl
    halted := rfl
    depth := congrArg (· + 1) h.depth
    steps := by simp only [State.nested, h.depth, h.steps] }

/-- A transaction that is rolled back leaves its host only, and the count. -/
theorem rollback {i j : State H} (h : Lockstep S E O s t) (hi : Lockstep S E O i j) :
    Lockstep S E O (s.rollback i) (t.rollback j) :=
  { h with
    host := hi.host
    steps := by simp only [State.rollback, h.depth, h.steps, hi.steps] }

/-- A transaction hands over stack, environment and host as wholes. -/
theorem commit {i j : State H} (h : Lockstep S E O s t) (hi : Lockstep S E O i j) :
    Lockstep S E O (s.commit i) (t.commit j) := by
  rw [commit_eq, commit_eq]
  exact { h.rollback hi with
    stack := hi.stack
    env := hi.env
    queue := by simp only [h.queue, hi.halted]
    halted := by simp only [h.halted, hi.halted] }

/-- Transactions whose nested runs end alike, in lockstep, leave machines in lockstep. -/
theorem settle (h : Lockstep S E O s t) (hr : r.Rel (Lockstep S E O) r') :
    (s.settle r).Rel (Lockstep S E O) (t.settle r') := by
  cases hr with
  | finished hi => exact .finished (h.commit hi)
  | stopped hi => exact .stopped (h.rollback hi)

/-- Both machines start to count again, or none does. -/
theorem recount (h : Lockstep S E O s t) : Lockstep S E O s.recount t.recount := by
  -- Only at top level the count starts again, and both machines are as deep.
  by_cases hd : s.depth = 0
  · rw [State.recount, State.recount, if_pos hd, if_pos (h.depth.trans hd)]
    exact { h with steps := rfl }
  · rw [State.recount, State.recount, if_neg hd, if_neg (h.depth.trans_ne hd)]
    exact h

end Lockstep

/-- Relations between stacks, environments and hosts that items keep, if they may be carried out
    in the first of two machines: a value is pushed on related stacks, and names are looked up in
    related environments; the signature of a core word is checked with the same outcome, and
    what the word does then is done alike. -/
structure Congruence [Host H] (S : List Value → List Value → Prop)
    (E : Environment → Environment → Prop) (O : H → H → Prop) (Allowed : Event H → Prop) :
    Prop where
  push {stack stack'} (v : Value) : S stack stack' → S (v :: stack) (v :: stack')
  lookup {env env' name} : E env env' → Word.ofName? name = none → env'.get? name = env.get? name
  topTypes_eq {w s t} : Lockstep S E O s t → Allowed (.item (.atom (Word.name w)) s) →
    topTypes w.signature.length t.stack = topTypes w.signature.length s.stack
  effect {w d s s' t} : Lockstep S E O s t → Allowed (.item (.atom (Word.name w)) s) →
    w.signature.admits s.stack = true → w.Effect s d s' →
    ∃ t', w.Effect t d t' ∧ Lockstep S E O s' t'

namespace Congruence

variable [Host H] {Allowed : Event H → Prop} {s s' t : State H} {v : Value} {d : Demand}
  {e : Fault} {w : Word}

/-- A core word is admitted by both stacks or by none. -/
theorem admits_eq (hc : Congruence S E O Allowed) (h : Lockstep S E O s t)
    (ha : Allowed (.item (.atom w.name) s)) :
    w.signature.admits t.stack = w.signature.admits s.stack := by
  rw [Signature.admits, Signature.admits, hc.topTypes_eq h ha]

/-- What an item does on the first machine it does on the second, and keeps them in lockstep. -/
theorem carries (hc : Congruence S E O Allowed) (h : Lockstep S E O s t)
    (ha : Allowed (.item v s)) (hs : Carries v s d s') :
    ∃ t', Carries v t d t' ∧ Lockstep S E O s' t' := by
  cases hs with
  | literal hv => exact ⟨_, .literal hv, { h with stack := hc.push v h.stack }⟩
  | core hw had he =>
    obtain rfl := Word.name_of_ofName? hw
    obtain ⟨t', he', ht'⟩ := hc.effect h ha had he
    exact ⟨t', .core hw ((hc.admits_eq h ha).trans had) he', ht'⟩
  | bound hw hq =>
    refine ⟨_, .bound hw ((hc.lookup h.env hw).trans hq), { h with queue := ?_ }⟩
    exact congrArg (_ :: _ :: ·) h.queue

/-- An item fails on both machines with the same fault. -/
theorem fails (hc : Congruence S E O Allowed) (h : Lockstep S E O s t)
    (ha : Allowed (.item v s)) (hs : Fails v s e) : Fails v t e := by
  cases hs with
  | mismatch hw had =>
    obtain rfl := Word.name_of_ofName? hw
    rw [← hc.topTypes_eq h ha]
    exact .mismatch hw ((hc.admits_eq h ha).trans had)
  | unknownWord hw hq => exact .unknownWord hw ((hc.lookup h.env hw).trans hq)

/-- Machines in lockstep run side by side if every core word keeps them so. -/
theorem simulation (hc : Congruence S E O Allowed) : Simulation (Lockstep S E O) Allowed where
  idle := Lockstep.turn_idle
  stop h hs _ := h.turn_stop hs
  item := Lockstep.turn_item
  dispatch_ok h ha hs := by
    obtain ⟨t', ht', hl⟩ := hc.carries h ha (carries_of_dispatch hs)
    exact ⟨t', ht'.dispatch_eq, hl⟩
  dispatch_error h ha hs := by
    -- An item that fails changes nothing, so the machines are still in lockstep.
    obtain ⟨hf, rfl⟩ := fails_of_dispatch hs
    exact ⟨_, (hc.fails h ha hf).dispatch_eq, h⟩
  refuse h hs _ := (h.programOf_eq _).trans hs
  nest h hs := ⟨(h.programOf_eq _).trans hs, h.nested _⟩
  settle := Lockstep.settle
  push v h := { h with stack := hc.push v h.stack }

end Congruence

end State

end Catena
