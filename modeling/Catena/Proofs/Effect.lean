import Catena.Machine.Run
import Catena.Proofs.Signature

/-!
# Effects of items

What it does to a machine and its host to carry out one item, as a relation instead of a
sequence of steps that may fail. Most core words only *rewrite* the top of the stack: they
take a fixed number of values and put others in their place, and they ask the host at most
for one thing (`Word.Rewrites`). The others are the words that look at more of the machine
(`Word.Effect`).

* `Word.exists_effect`: a core word has an effect on every stack that its signature admits;
* `Word.Effect.action_eq`: the effect is what the action of the word does;
* `State.dispatch_cases`: an item either is carried out, or fails and changes nothing.
-/

namespace Catena

variable {H : Type}

/-! ### Quotes as buffers -/

namespace Quote

@[simp]
theorem pop?_push (q : Quote) (v : Value) : (q.push v).pop? = some (v, q) := by
  simp [pop?, push]

@[simp]
theorem popPattern?_pushPattern (q : Quote) (v : Value) :
    (q.pushPattern v).popPattern? = some (v, q) := by
  simp [popPattern?, pushPattern]

/-- A body that is not empty has a last value. -/
theorem exists_eq_push {q : Quote} (h : q.body ≠ []) : ∃ q' v, q = push q' v :=
  ⟨{ q with body := q.body.dropLast }, q.body.getLast h,
    by simp [push, List.dropLast_append_getLast h]⟩

/-- A pattern that is not empty has a last value. -/
theorem exists_eq_pushPattern {q : Quote} (h : q.pattern ≠ []) :
    ∃ q' v, q = pushPattern q' v :=
  ⟨{ q with pattern := q.pattern.dropLast }, q.pattern.getLast h,
    by simp [pushPattern, List.dropLast_append_getLast h]⟩

end Quote

/-! ### Parts of actions -/

namespace Action

variable {s : State H} {rest : List Value} {t : String} {h' : H}

/-- An action goes on after a success, with what it was given. -/
theorem bind_eq_of_ok {α β : Type} {x : Action H α} {f : α → Action H β} {a : α} {s' : State H}
    (h : x s = .ok a s') : (x >>= f) s = f a s' := by
  simp only [bind, EStateM.bind, h]

/-- An action ends at its first failure. -/
theorem bind_eq_of_error {α β : Type} {x : Action H α} {f : α → Action H β} {e : Fault}
    {s' : State H} (h : x s = .error e s') : (x >>= f) s = .error e s' := by
  simp only [bind, EStateM.bind, h]

theorem pop_eq {w : Word} {v : Value} (hs : s.stack = v :: rest) :
    pop w s = .ok v { s with stack := rest } := by
  simp only [pop, hs]

theorem popString_eq {w : Word} (hs : s.stack = .str t :: rest) :
    popString w s = .ok t { s with stack := rest } :=
  bind_eq_of_ok (pop_eq hs)

theorem popSymbol_eq {w : Word} {n : String} (hs : s.stack = .sym n :: rest) :
    popSymbol w s = .ok n { s with stack := rest } :=
  bind_eq_of_ok (pop_eq hs)

theorem popQuote_eq {w : Word} {q : Quote} (hs : s.stack = q.toValue :: rest) :
    popQuote w s = .ok q { s with stack := rest } :=
  bind_eq_of_ok (pop_eq hs)

/-- The last value of a quote is put above what is left of the quote. -/
theorem takeLast_eq {w : Word} {last? : Quote → Option (Value × Quote)} {q q' : Quote}
    {v : Value} (hs : s.stack = q.toValue :: rest) (hl : last? q = some (v, q')) :
    takeLast w last? s = .ok .proceed { s with stack := v :: q'.toValue :: rest } := by
  have ht : topQuote w s = .ok q s := by
    rw [topQuote, hs]
    rfl
  simp only [takeLast, bind, EStateM.bind, ht, hl]
  rw [update, hs]
  rfl

/-- What a host answers is put on the stack as a string, under `:ok`. -/
theorem request_eq_of_ok {ask : H → Except HostError String × H}
    (h : ask s.host = (.ok t, h')) :
    request ask s = .ok .proceed { s with stack := .ok :: .str t :: s.stack, host := h' } := by
  rw [request, update, h]

/-- Of a failure of the host no more than `:not-ok` is told. -/
theorem request_eq_of_error {ask : H → Except HostError String × H} {e : HostError}
    (h : ask s.host = (.error e, h')) :
    request ask s = .ok .proceed { s with stack := .notOk :: s.stack, host := h' } := by
  rw [request, update, h]

theorem save_eq_of_ok [Host H] {path : String} (h : Host.save path t s.host = (.ok (), h')) :
    save path t s = .ok .proceed { s with stack := .ok :: s.stack, host := h' } := by
  rw [save, update, h]

theorem save_eq_of_error [Host H] {path : String} {e : HostError}
    (h : Host.save path t s.host = (.error e, h')) :
    save path t s = .ok .proceed { s with stack := .notOk :: s.stack, host := h' } := by
  rw [save, update, h]

/-- What has been read is put on the stack as a quote, under `:ok`. -/
theorem pushParsed_eq_of_ok {items : List Value}
    (h : Parser.parse Parser.defaultDepth t = .ok items) :
    pushParsed t s = .ok .proceed { s with stack := .ok :: .ofBody items :: s.stack } := by
  rw [pushParsed, update, h]

/-- Where in a text the error is, and which, is not told. -/
theorem pushParsed_eq_of_error {e : ParseError}
    (h : Parser.parse Parser.defaultDepth t = .error e) :
    pushParsed t s = .ok .proceed { s with stack := .notOk :: s.stack } := by
  rw [pushParsed, update, h]

/-- A quote whose pattern fits takes its arguments, and its body is carried out next. -/
theorem callQuote_eq_of_some {q : Quote} {body below : List Value}
    (h : applyTo s.stack q = some (body, below)) :
    callQuote q s = .ok .proceed { s with stack := below, queue := body ++ s.queue } := by
  rw [callQuote, update, h]
  rfl

/-- A quote whose pattern does not fit takes as many values nevertheless, and leaves `:nil`. -/
theorem callQuote_eq_of_none {q : Quote} (h : applyTo s.stack q = none) :
    callQuote q s =
      .ok .proceed { s with stack := .nil :: s.stack.drop q.pattern.length } := by
  rw [callQuote, update, h]

/-- The first clause that fits is called. -/
theorem selectClause_eq_of_some {clauses body below : List Value}
    (h : firstClause s.stack clauses = some (body, below)) :
    selectClause clauses s =
      .ok .proceed { s with stack := below, queue := body ++ s.queue } := by
  rw [selectClause, update, h]
  rfl

/-- If no clause fits, none takes its arguments. -/
theorem selectClause_eq_of_none {clauses : List Value}
    (h : firstClause s.stack clauses = none) : selectClause clauses s = .ok .proceed s := by
  rw [selectClause, update, h]

end Action

/-! ### Core words -/

namespace Word

open Catena.Action (applyTo firstClause)

/-- A core word that takes the values `taken` off the top of the stack and puts `pushed` in
    their place, both with the top in front, and leaves another host. -/
inductive Rewrites [Host H] :
    Word → (taken : List Value) → H → (pushed : List Value) → H → Prop
  | add {h x₁ x₂} : Rewrites .add [.num x₂, .num x₁] h [.num (x₁ + x₂)] h
  | mul {h x₁ x₂} : Rewrites .mul [.num x₂, .num x₁] h [.num (x₁ * x₂)] h
  | div {h x₁ x₂} : Rewrites .div [.num x₂, .num x₁] h [.num (x₂ / x₁)] h
  | less {h x₁ x₂} : Rewrites .less [.num x₂, .num x₁] h [.truth (x₁ < x₂)] h
  | print {h t} : Rewrites .print [.str t] h [] (Host.print t h)
  | takeBody {h q v} : Rewrites .takeBody [(Quote.push q v).toValue] h [v, q.toValue] h
  | putBody {h q v} : Rewrites .putBody [v, Quote.toValue q] h [(q.push v).toValue] h
  | takePattern {h q v} :
    Rewrites .takePattern [(Quote.pushPattern q v).toValue] h [v, q.toValue] h
  | putPattern {h q v} :
    Rewrites .putPattern [v, Quote.toValue q] h [(q.pushPattern v).toValue] h
  | join {h top below} :
    Rewrites .join [Quote.toValue top, Quote.toValue below] h [.ofBody (below.body ++ top.body)] h
  | split {h q} : Rewrites .split [Quote.toValue q] h [.ofBody q.body, .ofBody q.pattern] h
  | render {h v} : Rewrites .render [v] h [.str v.text] h
  | chars {h t} :
    Rewrites .chars [.str t] h [.ofBody (t.toList.map fun c => .str (String.ofList [c]))] h
  | weld {h t₁ t₂} : Rewrites .weld [.str t₂, .str t₁] h [.str (t₁ ++ t₂)] h
  | typeOf {h v} : Rewrites .typeOf [v] h [v.ty.toValue] h
  | parse {h t items} : Parser.parse Parser.defaultDepth t = .ok items →
    Rewrites .parse [.str t] h [.ok, .ofBody items] h
  | parseFails {h t e} : Parser.parse Parser.defaultDepth t = .error e →
    Rewrites .parse [.str t] h [.notOk] h
  | load {h h' path t} : Host.load path h = (.ok t, h') →
    Rewrites .load [.str path] h [.ok, .str t] h'
  | loadFails {h h' path e} : Host.load path h = (.error e, h') →
    Rewrites .load [.str path] h [.notOk] h'
  | command {h h' c t} : Host.command c h = (.ok t, h') →
    Rewrites .command [.str c] h [.ok, .str t] h'
  | commandFails {h h' c e} : Host.command c h = (.error e, h') →
    Rewrites .command [.str c] h [.notOk] h'
  | write {h h' path t} : Host.save path t h = (.ok (), h') →
    Rewrites .write [.str path, .str t] h [.ok] h'
  | writeFails {h h' path t e} : Host.save path t h = (.error e, h') →
    Rewrites .write [.str path, .str t] h [.notOk] h'

/-- What a core word does to a machine and its host, and what it demands. -/
inductive Effect [Host H] : Word → State H → Demand → State H → Prop
  | rewrite {w taken pushed rest h'} {s : State H} :
    Rewrites w taken s.host pushed h' → s.stack = taken ++ rest →
    Effect w s .proceed { s with stack := pushed ++ rest, host := h' }
  | printStack {s : State H} :
    Effect .printStack s .proceed
      { s with host := Host.print (Value.sequenceText s.stack.reverse ++ "\n") s.host }
  | call {q body rest below} {s : State H} :
    s.stack = Quote.toValue q :: rest → applyTo rest q = some (body, below) →
    Effect .call s .proceed { s with stack := below, queue := body ++ s.queue }
  | callFails {q rest} {s : State H} :
    s.stack = Quote.toValue q :: rest → applyTo rest q = none →
    Effect .call s .proceed { s with stack := Value.nil :: rest.drop q.pattern.length }
  | select {q body rest below} {s : State H} :
    s.stack = Quote.toValue q :: rest → firstClause rest q.body = some (body, below) →
    Effect .select s .proceed { s with stack := below, queue := body ++ s.queue }
  | selectNone {q rest} {s : State H} :
    s.stack = Quote.toValue q :: rest → firstClause rest q.body = none →
    Effect .select s .proceed { s with stack := rest }
  | define {name q rest} {s : State H} :
    s.stack = .sym name :: Quote.toValue q :: rest →
    Effect .define s .proceed { s with stack := rest, env := s.env.insert name q }
  | eval {source rest} {s : State H} :
    s.stack = .str source :: rest → Effect .eval s (.evaluate source) { s with stack := rest }
  | exit {s : State H} :
    Effect .exit s .proceed { s with toMachine := s.toMachine.halt, host := Host.exit s.host }

variable [Host H] {w : Word} {s s' : State H} {d : Demand}

/-- The values that a rewriting word takes off a stack are replaced, and what is below them stays.
    -/
theorem Rewrites.action_eq {taken pushed rest : List Value} {h' : H}
    (hr : Rewrites w taken s.host pushed h') (hs : s.stack = taken ++ rest) :
    w.action s = .ok .proceed { s with stack := pushed ++ rest, host := h' } := by
  -- With the stack in this form the values are taken off it by computation.
  obtain ⟨⟨stack, queue, env, limits, halted, depth, steps⟩, host⟩ := s
  obtain rfl : stack = taken ++ rest := hs
  dsimp only at hr
  cases hr with
  | takeBody => exact Action.takeLast_eq rfl (Quote.pop?_push _ _)
  | takePattern => exact Action.takeLast_eq rfl (Quote.popPattern?_pushPattern _ _)
  | parse he => exact Action.pushParsed_eq_of_ok he
  | parseFails he => exact Action.pushParsed_eq_of_error he
  | load he => exact Action.request_eq_of_ok he
  | loadFails he => exact Action.request_eq_of_error he
  | command he => exact Action.request_eq_of_ok he
  | commandFails he => exact Action.request_eq_of_error he
  | write he => exact Action.save_eq_of_ok he
  | writeFails he => exact Action.save_eq_of_error he
  | _ => rfl

/-- The effect of a core word is what its action does. -/
theorem Effect.action_eq (h : Effect w s d s') : w.action s = .ok d s' := by
  cases h with
  | rewrite hr hs => exact hr.action_eq hs
  | printStack => rfl
  | call hs ha =>
    rw [action, Action.bind_eq_of_ok (Action.popQuote_eq hs)]
    exact Action.callQuote_eq_of_some ha
  | callFails hs ha =>
    rw [action, Action.bind_eq_of_ok (Action.popQuote_eq hs)]
    exact Action.callQuote_eq_of_none ha
  | select hs ha =>
    rw [action, Action.bind_eq_of_ok (Action.popQuote_eq hs)]
    exact Action.selectClause_eq_of_some ha
  | selectNone hs ha =>
    rw [action, Action.bind_eq_of_ok (Action.popQuote_eq hs)]
    exact Action.selectClause_eq_of_none ha
  | define hs =>
    rw [action, Action.bind_eq_of_ok (Action.popSymbol_eq hs),
      Action.bind_eq_of_ok (Action.popQuote_eq rfl)]
    rfl
  | eval hs =>
    rw [action, Action.bind_eq_of_ok (Action.popString_eq hs)]
    rfl
  | exit => rfl

/-- A word that rewrites the top of a stack has an effect on it. -/
theorem Rewrites.exists_effect {taken pushed rest : List Value} {h' : H}
    (hr : Rewrites w taken s.host pushed h') (hs : s.stack = taken ++ rest) :
    ∃ d s', Effect w s d s' :=
  ⟨_, _, .rewrite hr hs⟩

/-- A core word leaves the limits, the depth and the count of items alone. -/
theorem Effect.frame (h : Effect w s d s') :
    s'.limits = s.limits ∧ s'.depth = s.depth ∧ s'.steps = s.steps := by
  cases h <;> exact ⟨rfl, rfl, rfl⟩

/-- No core word but `exit` ends the program. -/
theorem Effect.halted_iff (h : Effect w s d s') :
    s'.halted = true ↔ s.halted = true ∨ w = .exit := by
  cases h with
  | rewrite hr => cases hr <;> simp
  | exit => simp [Machine.halt]
  | _ => simp

/-! The words that take the same values, and rewrite whatever values these are. -/

theorem exists_effect_of_value (h : Signature.admits [.any] s.stack = true)
    (hr : ∀ v, ∃ pushed h', Rewrites w [v] s.host pushed h') : ∃ d s', Effect w s d s' := by
  obtain ⟨v, rest, hs⟩ := Signature.admits_value.1 h
  obtain ⟨pushed, h', hr⟩ := hr v
  exact hr.exists_effect hs

theorem exists_effect_of_string (h : Signature.admits [.str] s.stack = true)
    (hr : ∀ t, ∃ pushed h', Rewrites w [.str t] s.host pushed h') : ∃ d s', Effect w s d s' := by
  obtain ⟨t, rest, hs⟩ := Signature.admits_string.1 h
  obtain ⟨pushed, h', hr⟩ := hr t
  exact hr.exists_effect hs

theorem exists_effect_of_numbers (h : Signature.admits [.num, .num] s.stack = true)
    (hr : ∀ x₂ x₁, ∃ pushed h', Rewrites w [.num x₂, .num x₁] s.host pushed h') :
    ∃ d s', Effect w s d s' := by
  obtain ⟨x₂, x₁, rest, hs⟩ := Signature.admits_numbers.1 h
  obtain ⟨pushed, h', hr⟩ := hr x₂ x₁
  exact hr.exists_effect hs

theorem exists_effect_of_strings (h : Signature.admits [.str, .str] s.stack = true)
    (hr : ∀ t₂ t₁, ∃ pushed h', Rewrites w [.str t₂, .str t₁] s.host pushed h') :
    ∃ d s', Effect w s d s' := by
  obtain ⟨t₂, t₁, rest, hs⟩ := Signature.admits_strings.1 h
  obtain ⟨pushed, h', hr⟩ := hr t₂ t₁
  exact hr.exists_effect hs

theorem exists_effect_of_quote_value (h : Signature.admits [.anyQuote, .any] s.stack = true)
    (hr : ∀ v q, ∃ pushed h', Rewrites w [v, Quote.toValue q] s.host pushed h') :
    ∃ d s', Effect w s d s' := by
  obtain ⟨v, q, rest, hs⟩ := Signature.admits_quote_value.1 h
  obtain ⟨pushed, h', hr⟩ := hr v q
  exact hr.exists_effect hs

/-! The words whose answer tells whether they have succeeded. -/

theorem exists_rewrites_parse (t : String) (h : H) :
    ∃ pushed h', Rewrites .parse [.str t] h pushed h' := by
  cases hp : Parser.parse Parser.defaultDepth t with
  | ok items => exact ⟨_, _, .parse hp⟩
  | error e => exact ⟨_, _, .parseFails hp⟩

theorem exists_rewrites_load (path : String) (h : H) :
    ∃ pushed h', Rewrites .load [.str path] h pushed h' := by
  rcases ha : Host.load path h with ⟨_ | _, h'⟩
  · exact ⟨_, _, .loadFails ha⟩
  · exact ⟨_, _, .load ha⟩

theorem exists_rewrites_command (c : String) (h : H) :
    ∃ pushed h', Rewrites .command [.str c] h pushed h' := by
  rcases ha : Host.command c h with ⟨_ | _, h'⟩
  · exact ⟨_, _, .commandFails ha⟩
  · exact ⟨_, _, .command ha⟩

theorem exists_rewrites_write (path t : String) (h : H) :
    ∃ pushed h', Rewrites .write [.str path, .str t] h pushed h' := by
  rcases ha : Host.save path t h with ⟨_ | _, h'⟩
  · exact ⟨_, _, .writeFails ha⟩
  · exact ⟨_, _, .write ha⟩

/-! The words that a quote says what to do. -/

theorem exists_effect_call (h : Signature.admits [.anyQuote] s.stack = true) :
    ∃ d s', Effect .call s d s' := by
  obtain ⟨q, rest, hs⟩ := Signature.admits_quote.1 h
  cases ha : applyTo rest q with
  | none => exact ⟨_, _, .callFails hs ha⟩
  | some r => exact ⟨_, _, .call hs ha⟩

theorem exists_effect_select (h : Signature.admits [.quote .empty .anyQuote] s.stack = true) :
    ∃ d s', Effect .select s d s' := by
  obtain ⟨q, rest, hs, -, -⟩ := Signature.admits_clauses.1 h
  cases ha : firstClause rest q.body with
  | none => exact ⟨_, _, .selectNone hs ha⟩
  | some r => exact ⟨_, _, .select hs ha⟩

/-- A core word has an effect on every stack that its signature admits. -/
theorem exists_effect (h : w.signature.admits s.stack = true) : ∃ d s', Effect w s d s' := by
  -- The signature tells which values there are on the stack, and with these each word has its rule.
  cases w with
  | add => exact exists_effect_of_numbers h fun _ _ => ⟨_, _, .add⟩
  | mul => exact exists_effect_of_numbers h fun _ _ => ⟨_, _, .mul⟩
  | div => exact exists_effect_of_numbers h fun _ _ => ⟨_, _, .div⟩
  | less => exact exists_effect_of_numbers h fun _ _ => ⟨_, _, .less⟩
  | print => exact exists_effect_of_string h fun _ => ⟨_, _, .print⟩
  | printStack => exact ⟨_, _, .printStack⟩
  | takeBody =>
    obtain ⟨q, rest, hs, hb⟩ := Signature.admits_body.1 h
    obtain ⟨q', v, rfl⟩ := Quote.exists_eq_push hb
    exact Rewrites.takeBody.exists_effect hs
  | putBody => exact exists_effect_of_quote_value h fun _ _ => ⟨_, _, .putBody⟩
  | takePattern =>
    obtain ⟨q, rest, hs, hp⟩ := Signature.admits_pattern.1 h
    obtain ⟨q', v, rfl⟩ := Quote.exists_eq_pushPattern hp
    exact Rewrites.takePattern.exists_effect hs
  | putPattern => exact exists_effect_of_quote_value h fun _ _ => ⟨_, _, .putPattern⟩
  | join =>
    obtain ⟨top, below, rest, hs⟩ := Signature.admits_quotes.1 h
    exact Rewrites.join.exists_effect hs
  | split =>
    obtain ⟨q, rest, hs⟩ := Signature.admits_quote.1 h
    exact Rewrites.split.exists_effect hs
  | render => exact exists_effect_of_value h fun _ => ⟨_, _, .render⟩
  | call => exact exists_effect_call h
  | select => exact exists_effect_select h
  | chars => exact exists_effect_of_string h fun _ => ⟨_, _, .chars⟩
  | weld => exact exists_effect_of_strings h fun _ _ => ⟨_, _, .weld⟩
  | define =>
    obtain ⟨n, q, rest, hs⟩ := Signature.admits_quote_symbol.1 h
    exact ⟨_, _, .define hs⟩
  | typeOf => exact exists_effect_of_value h fun _ => ⟨_, _, .typeOf⟩
  | parse => exact exists_effect_of_string h fun t => exists_rewrites_parse t _
  | eval =>
    obtain ⟨t, rest, hs⟩ := Signature.admits_string.1 h
    exact ⟨_, _, .eval hs⟩
  | load => exact exists_effect_of_string h fun t => exists_rewrites_load t _
  | command => exact exists_effect_of_string h fun t => exists_rewrites_command t _
  | write => exact exists_effect_of_strings h fun _ _ => exists_rewrites_write _ _ _
  | exit => exact ⟨_, _, .exit⟩

end Word

/-! ### Items -/

namespace State

/-- What it does to carry out an item that has been taken off the queue. -/
inductive Carries [Host H] : Value → State H → Demand → State H → Prop
  | literal {v} {s : State H} : (∀ name, v ≠ .atom name) →
    Carries v s .proceed { s with stack := v :: s.stack }
  | core {name w d} {s s' : State H} : Word.ofName? name = some w →
    w.signature.admits s.stack = true → w.Effect s d s' → Carries (.atom name) s d s'
  | bound {name q} {s : State H} : Word.ofName? name = none → s.env.get? name = some q →
    Carries (.atom name) s .proceed
      { s with queue := q.toValue :: .atom Word.call.name :: s.queue }

/-- Why an item that has been taken off the queue cannot be carried out. -/
inductive Fails : Value → State H → Fault → Prop
  | mismatch {name w} {s : State H} : Word.ofName? name = some w →
    w.signature.admits s.stack = false →
    Fails (.atom name) s (.mismatch w w.signature (topTypes w.signature.length s.stack))
  | unknownWord {name} {s : State H} : Word.ofName? name = none → s.env.get? name = none →
    Fails (.atom name) s (.unknownWord name)

variable [Host H] {v : Value} {s s' : State H} {d : Demand} {e : Fault}

/-- A name is looked up among the core words first, and then in the environment. -/
theorem dispatch_atom (name : String) (s : State H) :
    dispatch (.atom name) s =
      match Word.ofName? name with
      | some w => (do require w; w.action) s
      | none =>
        match s.env.get? name with
        | some q =>
          .ok .proceed { s with queue := q.toValue :: .atom Word.call.name :: s.queue }
        | none => .error (.unknownWord name) s :=
  rfl

/-- A core word whose signature admits the stack does what its action does. -/
theorem dispatch_core {name : String} {w : Word} (hw : Word.ofName? name = some w)
    (ha : w.signature.admits s.stack = true) : dispatch (.atom name) s = w.action s := by
  have hr : require w s = .ok () s := by simp [require, ha]
  rw [dispatch_atom, hw]
  exact Action.bind_eq_of_ok hr

/-- What is no atom is put on the stack. -/
theorem dispatch_literal (hv : ∀ name, v ≠ .atom name) :
    dispatch v s = .ok .proceed { s with stack := v :: s.stack } := by
  cases v with
  | atom name => exact absurd rfl (hv name)
  | _ => rfl

/-- What it does to carry out an item is what is computed. -/
theorem Carries.dispatch_eq (h : Carries v s d s') : dispatch v s = .ok d s' := by
  cases h with
  | literal hv => exact dispatch_literal hv
  | core hw ha he => exact (dispatch_core hw ha).trans he.action_eq
  | bound hw hq => rw [dispatch_atom, hw, hq]

/-- An item that cannot be carried out gives its fault, and changes nothing. -/
theorem Fails.dispatch_eq (h : Fails v s e) : dispatch v s = .error e s := by
  cases h with
  | @mismatch name w s hw ha =>
    have hr : require w s =
        .error (.mismatch w w.signature (topTypes w.signature.length s.stack)) s := by
      simp [require, ha]
    rw [dispatch_atom, hw]
    exact Action.bind_eq_of_error hr
  | unknownWord hw hq => rw [dispatch_atom, hw, hq]

/-- An item can be carried out, or it cannot for one of the reasons. -/
theorem carries_or_fails (v : Value) (s : State H) :
    (∃ d s', Carries v s d s') ∨ ∃ e, Fails v s e := by
  -- Only atoms are looked up: first among the core words, then in the environment.
  by_cases hv : ∀ name, v ≠ .atom name
  · exact .inl ⟨_, _, .literal hv⟩
  · push Not at hv
    obtain ⟨name, rfl⟩ := hv
    cases hw : Word.ofName? name with
    | some w =>
      cases ha : w.signature.admits s.stack with
      | true =>
        obtain ⟨d, s', he⟩ := Word.exists_effect ha
        exact .inl ⟨d, s', .core hw ha he⟩
      | false => exact .inr ⟨_, .mismatch hw ha⟩
    | none =>
      cases hq : s.env.get? name with
      | some q => exact .inl ⟨_, _, .bound hw hq⟩
      | none => exact .inr ⟨_, .unknownWord hw hq⟩

/-- An item either is carried out, or fails and changes nothing. -/
theorem dispatch_cases (v : Value) (s : State H) :
    (∃ d s', Carries v s d s' ∧ dispatch v s = .ok d s') ∨
      ∃ e, Fails v s e ∧ dispatch v s = .error e s := by
  obtain ⟨d, s', h⟩ | ⟨e, h⟩ := carries_or_fails v s
  · exact .inl ⟨d, s', h, h.dispatch_eq⟩
  · exact .inr ⟨e, h, h.dispatch_eq⟩

/-- An item that succeeds has been carried out. -/
theorem carries_of_dispatch (h : dispatch v s = .ok d s') : Carries v s d s' := by
  obtain ⟨d', t, hc, hd⟩ | ⟨e, -, hd⟩ := dispatch_cases v s
  · rw [hd] at h
    cases h
    exact hc
  · rw [hd] at h
    cases h

/-- An item that fails leaves the machine as it was. -/
theorem fails_of_dispatch (h : dispatch v s = .error e s') : Fails v s e ∧ s' = s := by
  obtain ⟨d', t, -, hd⟩ | ⟨e', hf, hd⟩ := dispatch_cases v s
  · rw [hd] at h
    cases h
  · rw [hd] at h
    cases h
    exact ⟨hf, rfl⟩

/-- An item leaves the limits, the depth and the count of items alone. -/
theorem Carries.frame (h : Carries v s d s') :
    s'.limits = s.limits ∧ s'.depth = s.depth ∧ s'.steps = s.steps := by
  cases h with
  | literal => exact ⟨rfl, rfl, rfl⟩
  | core hw ha he => exact he.frame
  | bound => exact ⟨rfl, rfl, rfl⟩

/-- No item but the word `exit` ends the program. -/
theorem Carries.halted_iff (h : Carries v s d s') :
    s'.halted = true ↔ s.halted = true ∨ v = .atom Word.exit.name := by
  cases h with
  | literal hv => simp [hv]
  | @core name w d s s' hw ha he =>
    rw [he.halted_iff, Value.atom.injEq, ← Word.ofName?_eq_some_iff, hw, Option.some.injEq]
  | @bound name q s hw =>
    rw [Value.atom.injEq, ← Word.ofName?_eq_some_iff, hw]
    simp

omit [Host H] in
/-- The word `exit` never fails. -/
theorem Fails.ne_exit (h : Fails v s e) : v ≠ .atom Word.exit.name := by
  rintro rfl
  cases h with
  | mismatch hw ha =>
    rw [Word.ofName?_name, Option.some.injEq] at hw
    subst hw
    cases ha
  | unknownWord hw =>
    rw [Word.ofName?_name] at hw
    cases hw

/-- Only the word `eval` demands that a text is run: the one that it takes off the stack. -/
theorem Carries.eq_eval {source : String} (h : Carries v s (.evaluate source) s') :
    v = .atom Word.eval.name ∧ s.stack = .str source :: s'.stack ∧
      s' = { s with stack := s'.stack } := by
  cases h with
  | core hw ha he =>
    cases he with
    | eval hs =>
      rw [Word.ofName?_eq_some_iff] at hw
      exact ⟨congrArg Value.atom hw, hs, rfl⟩

end State

end Catena
