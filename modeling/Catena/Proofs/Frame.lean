import Catena.Host.Sandbox
import Catena.Proofs.Lockstep

/-!
# What lies under the stack

Core words work on the top of the stack, and most of them on a fixed number of values, so that
it makes no difference to them what lies below. A run that gets along with its stack can be put
on top of any other values: it leaves these where they are and does the same above them
(`State.run_above`).

Three things would tell how high the stack is (`State.WithinStack`): to write it out as a whole,
to check a signature against fewer values than it has, and to match a pattern against fewer
values than it has. The word `call` takes what is there in that case, and `select` passes the
clause over.

* `State.WithinStack`: the items that ask for no more than there is;
* `State.run_above`: the frame law.
-/

namespace Catena

open Catena.Action (applyTo firstClause)

variable {H : Type}

/-! ### Patterns on top of a stack -/

namespace Action

variable {stack : List Value} {under clauses : List Value} {q : Quote}

/-- A pattern that is not longer than a stack looks at nothing below it. -/
theorem applyTo_append (h : q.pattern.length ≤ stack.length) :
    applyTo (stack ++ under) q = (applyTo stack q).map fun r => (r.1, r.2 ++ under) := by
  rw [applyTo, applyTo, List.take_append_of_le_length h, List.drop_append_of_le_length h,
    Option.map_map]
  rfl

theorem firstClause_cons (stack : List Value) (v : Value) (clauses : List Value) :
    firstClause stack (v :: clauses) =
      (firstClause stack [v]).or (firstClause stack clauses) := by
  simp only [firstClause, List.findSome?_cons, List.findSome?_nil]
  split <;> simp_all

theorem firstClause_quote (stack : List Value) (q : Quote) :
    firstClause stack [q.toValue] = applyTo stack q := by
  simp only [firstClause, List.findSome?_cons, List.findSome?_nil, Quote.toValue]
  cases applyTo stack q <;> rfl

theorem firstClause_literal {v : Value} (hv : ∀ q : Quote, v ≠ q.toValue) :
    firstClause stack [v] = none := by
  cases v with
  | quote pattern body => exact absurd rfl (hv ⟨pattern, body⟩)
  | _ => rfl

/-- The same is true of clauses, if it is true of the patterns of those that are tried. -/
theorem firstClause_append
    (h : ∀ before q after, clauses = before ++ Quote.toValue q :: after →
      firstClause stack before = none → q.pattern.length ≤ stack.length) :
    firstClause (stack ++ under) clauses =
      (firstClause stack clauses).map fun r => (r.1, r.2 ++ under) := by
  induction clauses with
  | nil => rfl
  | cons v clauses ih =>
    have hv : firstClause (stack ++ under) [v] =
        (firstClause stack [v]).map fun r => (r.1, r.2 ++ under) := by
      by_cases hq : ∀ q : Quote, v ≠ q.toValue
      · rw [firstClause_literal hq, firstClause_literal hq, Option.map_none]
      · push Not at hq
        obtain ⟨q, rfl⟩ := hq
        rw [firstClause_quote, firstClause_quote, applyTo_append (h [] q clauses rfl rfl)]
    rw [firstClause_cons, firstClause_cons stack, hv]
    cases hf : firstClause stack [v] with
    | some r => rfl
    | none =>
      rw [Option.map_none, Option.none_or, Option.none_or]
      refine ih fun before q after he hn => h (v :: before) q after (congrArg (v :: ·) he) ?_
      rw [firstClause_cons, hf, Option.none_or, hn]

end Action

/-! ### Items on top of a stack -/

namespace State

/-- An item asks for no more values than there are on the stack: it does not write the stack out,
    and if it is a core word, then neither its signature has more entries, nor the pattern of the
    quote that it calls, nor that of any clause that it tries. A clause is tried if none of those
    in front of it fits. -/
structure WithinStack (v : Value) (s : State H) : Prop where
  ne_printStack : v ≠ .atom Word.printStack.name
  signature : ∀ w, v = .atom (Word.name w) → w.signature.length ≤ s.stack.length
  call : v = .atom Word.call.name →
    ∀ q rest, s.stack = Quote.toValue q :: rest → q.pattern.length ≤ rest.length
  select : v = .atom Word.select.name → Word.select.signature.admits s.stack = true →
    ∀ q rest, s.stack = Quote.toValue q :: rest →
      ∀ before c after, q.body = before ++ Quote.toValue c :: after →
        firstClause rest before = none → c.pattern.length ≤ rest.length

/-- The state with its stack on top of other values. -/
def above (under : List Value) (s : State H) : State H :=
  { s with stack := s.stack ++ under }

/-- The second of two stacks is the first one on top of other values. -/
def IsAbove (under stack stack' : List Value) : Prop := stack' = stack ++ under

variable {s s' t : State H} {under : List Value} {v : Value}

theorem withinStack_literal (hv : ∀ name, v ≠ .atom name) : WithinStack v s where
  ne_printStack := hv _
  signature _ h := absurd h (hv _)
  call h := absurd h (hv _)
  select h := absurd h (hv _)

/-- A word that only rewrites the top of the stack, or runs a text, asks for what its signature
    says. -/
theorem withinStack_of_signature {w : Word} (hp : w ≠ .printStack) (hc : w ≠ .call)
    (hs : w ≠ .select) (hl : w.signature.length ≤ s.stack.length) :
    WithinStack (.atom w.name) s where
  ne_printStack h := hp (Word.name_inj.1 (Value.atom.inj h))
  signature _ h := by rwa [← Word.name_inj.1 (Value.atom.inj h)]
  call h := absurd (Word.name_inj.1 (Value.atom.inj h)) hc
  select h := absurd (Word.name_inj.1 (Value.atom.inj h)) hs

/-- The word `call` also asks for what the quote on top of the stack takes. -/
theorem withinStack_call {q : Quote} {rest : List Value} (hs : s.stack = q.toValue :: rest)
    (hl : q.pattern.length ≤ rest.length) : WithinStack (.atom Word.call.name) s where
  ne_printStack h := absurd (Word.name_inj.1 (Value.atom.inj h)) nofun
  signature w h := by
    rw [← Word.name_inj.1 (Value.atom.inj h), hs]
    exact Nat.succ_le_succ (Nat.zero_le _)
  call _ q' rest' h := by
    rw [hs] at h
    obtain ⟨hq, rfl⟩ := List.cons.inj h
    rwa [← (Value.quote.inj hq).1]
  select h := absurd (Word.name_inj.1 (Value.atom.inj h)) nofun

theorem Lockstep.eq_above (h : Lockstep (IsAbove under) Eq Eq s t) : t = s.above under :=
  h.eq_with.trans (by rw [h.stack, ← h.env, ← h.host]; rfl)

theorem lockstep_above (under : List Value) (s : State H) :
    Lockstep (IsAbove under) Eq Eq s (s.above under) :=
  ⟨rfl, rfl, rfl, rfl, rfl, rfl, rfl, rfl⟩

theorem above_stack_of_append (taken : List Value) {rest : List Value}
    (h : s.stack = taken ++ rest) :
    (s.above under).stack = taken ++ (rest ++ under) := by
  rw [above, h, List.append_assoc]

theorem above_stack_of_cons {rest : List Value} (h : s.stack = v :: rest) :
    (s.above under).stack = v :: (rest ++ under) :=
  above_stack_of_append [v] h

theorem topTypes_above {n : Nat} (h : n ≤ s.stack.length) :
    topTypes n (s.above under).stack = topTypes n s.stack := by
  rw [topTypes, topTypes, above, List.take_append_of_le_length h]

end State

section Words

variable [Host H] {w : Word} {s s' : State H} {d : Demand} {under : List Value}

/-- A core word that asks for no more values than there are does the same on top of others. -/
theorem Word.Effect.above (h : w.Effect s d s') (hw : State.WithinStack (.atom w.name) s)
    (had : w.signature.admits s.stack = true) :
    w.Effect (s.above under) d (s'.above under) := by
  cases h with
  | rewrite hr hs =>
    dsimp only [State.above]
    rw [List.append_assoc]
    exact .rewrite (s := State.above under _) hr (State.above_stack_of_append _ hs)
  | printStack => exact absurd rfl hw.ne_printStack
  | @call q body rest below s hs ha =>
    refine .call (s := State.above under s) (State.above_stack_of_cons hs) ?_
    rw [Action.applyTo_append (hw.call rfl q rest hs), ha]
    rfl
  | @callFails q rest s hs ha =>
    have hle := hw.call rfl q rest hs
    have he := Word.Effect.callFails (s := State.above under s) (State.above_stack_of_cons hs)
      (by rw [Action.applyTo_append hle, ha, Option.map_none])
    rwa [List.drop_append_of_le_length hle] at he
  | @select q body rest below s hs ha =>
    refine .select (s := State.above under s) (State.above_stack_of_cons hs) ?_
    rw [Action.firstClause_append (hw.select rfl had q rest hs), ha]
    rfl
  | @selectNone q rest s hs ha =>
    refine .selectNone (s := State.above under s) (State.above_stack_of_cons hs) ?_
    rw [Action.firstClause_append (hw.select rfl had q rest hs), ha, Option.map_none]
  | define hs =>
    exact .define (s := State.above under _) (State.above_stack_of_append [_, _] hs)
  | eval hs => exact .eval (s := State.above under _) (State.above_stack_of_cons hs)
  | exit => exact .exit (s := State.above under _)

end Words

/-! ### Runs on top of a stack -/

namespace State

/-- What may happen in a run that is to be put on top of other values. -/
def FitsStack : Event H → Prop
  | .item v s => WithinStack v s
  | .refusal _ _ => True

variable [Host H] {s s' : State H} {under : List Value} {fuel : Nat}

/-- Items that ask for no more values than there are do the same on top of others. -/
theorem congruence_isAbove (under : List Value) :
    Congruence (H := H) (IsAbove under) Eq Eq FitsStack where
  push v h := congrArg (v :: ·) h
  lookup h _ := by rw [h]
  topTypes_eq h ha := by
    rw [h.eq_above]
    exact topTypes_above (ha.signature _ rfl)
  effect := by
    intro w d s s' t h ha had he
    refine ⟨s'.above under, ?_, lockstep_above under s'⟩
    rw [h.eq_above]
    exact he.above ha had

/-- The frame law. A run that succeeds, and in which no item asks for more values than there are
    on the stack, at whatever level of nesting, can be put on top of any other values: it ends in
    the same way and leaves these where they are, under the stack. -/
theorem run_above (under : List Value) (h : run fuel s = some (.finished s'))
    (hx : ∀ level v t, Happens s.recount level (.item v t) → WithinStack v t) :
    run fuel (s.above under) = some (.finished (s'.above under)) := by
  have hfit : ∀ level event, Happens s.recount level event → FitsStack event := by
    rintro level (⟨v, t⟩ | _) he
    · exact hx level v t he
    · trivial
  have hrel := (congruence_isAbove under).simulation.proceed_rel (lockstep_above under s).recount
    hfit fuel
  obtain ⟨t, ht, hl⟩ := Ending.exists_finished_right hrel h
  rw [← hl.eq_above]
  exact ht

/-- A quote that drops a value is called and a text evaluated, on top of other values. -/
theorem run_above_eval :
    ∃ s s' : State Sandbox, s.stack = [.sym "a"] ∧
      s.queue = [.quote [.atom "x"] [], .atom "call", .str ":b", .atom "eval"] ∧
      run 6 s = some (.finished s') ∧
      (∀ level v t, Happens s.recount level (.item v t) → WithinStack v t) ∧
      run 6 (s.above [.sym "c", .str "d"]) = some (.finished (s'.above [.sym "c", .str "d"])) ∧
      (s'.above [.sym "c", .str "d"]).stack = [.ok, .sym "b", .sym "c", .str "d"] := by
  have hp : Parser.parse Parser.defaultDepth ":b" = .ok [.sym "b"] := by
    with_unfolding_all rfl
  let s : State Sandbox := {
    stack := [.sym "a"]
    queue := [.quote [.atom "x"] [], .atom "call", .str ":b", .atom "eval"]
    host := {} }
  have hr : Runs s.recount _ (.finished _) := .step rfl rfl (.step rfl rfl (.step rfl rfl
    (.nest rfl rfl (programOf_eq_ok.2 ⟨show 0 < 64 by decide, hp⟩) (.step rfl rfl (.idle rfl))
      (.idle rfl))))
  have hx : ∀ level v t, Happens s.recount level (.item v t) → WithinStack v t := by
    intro level v t he
    have hm := hr.mem_log_iff.2 ⟨level, he⟩
    simp only [List.mem_cons, List.cons_append, List.nil_append, List.not_mem_nil, or_false,
      Event.item.injEq] at hm
    rcases hm with ⟨rfl, rfl⟩ | ⟨rfl, rfl⟩ | ⟨rfl, rfl⟩ | ⟨rfl, rfl⟩ | ⟨rfl, rfl⟩
    · exact withinStack_literal nofun
    · exact withinStack_call (q := ⟨[.atom "x"], []⟩) rfl (Nat.le_refl 1)
    · exact withinStack_literal nofun
    · exact withinStack_of_signature (w := .eval) nofun nofun nofun (Nat.le_refl 1)
    · exact withinStack_literal nofun
  have he : run 6 s = some (.finished _) := hr.proceed_eq (Nat.lt_succ_self 5)
  exact ⟨s, _, rfl, rfl, he, hx, run_above _ he hx, rfl⟩

end State

end Catena
