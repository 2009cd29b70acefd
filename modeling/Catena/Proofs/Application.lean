import Catena.Host.Sandbox
import Catena.Proofs.Effect
import Catena.Proofs.Join
import Catena.Proofs.Matching

/-!
# Quotes applied to a stack

The words `call` and `match` both put the body of a quote in front of the queue, bound to the top
of the stack. `call` takes the quote it is given, and spoils the stack if the pattern does not
fit; `match` goes through its clauses until one fits (`Quote.AppliesTo`), and leaves the stack
alone if none does. So to match is to call the first clause that applies.

* `Action.applyTo_eq_none_iff`: a quote either applies to a stack, or leaves it to the word;
* `Action.firstClause_eq_some`: what the first clause that applies makes of a stack;
* `State.dispatch_call`, `State.dispatch_select`: the two words on a stack that they accept;
* `State.dispatch_select_first`: `match` is `call` of the first clause that applies.
-/

namespace Catena

open Catena.Action (applyTo firstClause)

variable {H : Type} {q : Quote} {b : Bindings} {stack base : List Value}

/-- A quote applies to a stack with these bindings: the stack is not lower than its pattern, which
    matches what is on top. -/
structure Quote.AppliesTo (q : Quote) (stack : List Value) (b : Bindings) : Prop where
  length_le : q.pattern.length ≤ stack.length
  match?_eq : Pattern.match? q.pattern (stack.take q.pattern.length).reverse = some b

/-- A pattern that is higher than a stack matches nothing on it. -/
theorem Quote.appliesTo_iff :
    q.AppliesTo stack b ↔
      Pattern.match? q.pattern (stack.take q.pattern.length).reverse = some b := by
  refine ⟨fun h => h.match?_eq, fun h => ⟨?_, h⟩⟩
  have hl := (Pattern.exists_match?_iff.1 ⟨b, h⟩).length
  rw [List.length_reverse, List.length_take] at hl
  exact min_eq_left_iff.1 hl

namespace Action

/-! ### The body and the stack below -/

theorem applyTo_eq_some (h : q.AppliesTo stack b) :
    applyTo stack q = some ((q.bind b).body, stack.drop q.pattern.length) := by
  rw [applyTo, h.match?_eq, Option.map_some]

theorem applyTo_eq_none_iff : applyTo stack q = none ↔ ∀ b, ¬ q.AppliesTo stack b := by
  rw [applyTo, Option.map_eq_none_iff, Option.eq_none_iff_forall_ne_some]
  exact forall_congr' fun b => not_congr Quote.appliesTo_iff.symm

/-! ### The first clause that applies -/

variable {clauses : List Quote}

theorem firstClause_eq_findSome? (stack : List Value) (clauses : List Quote) :
    firstClause stack (clauses.map Quote.toValue) = clauses.findSome? (applyTo stack) := by
  rw [firstClause, List.findSome?_map]
  rfl

theorem firstClause_eq_some {i : Nat} (hi : clauses[i]? = some q) (hq : q.AppliesTo stack b)
    (hfirst : ∀ j < i, ∀ q' b', clauses[j]? = some q' → ¬ q'.AppliesTo stack b') :
    firstClause stack (clauses.map Quote.toValue) =
      some ((q.bind b).body, stack.drop q.pattern.length) := by
  obtain ⟨hlt, rfl⟩ := List.getElem?_eq_some_iff.1 hi
  rw [firstClause_eq_findSome?, List.findSome?_eq_some_iff]
  refine ⟨clauses.take i, clauses[i], clauses.drop (i + 1), ?_, applyTo_eq_some hq, ?_⟩
  · rw [← List.drop_eq_getElem_cons hlt, List.take_append_drop]
  · intro q' hq'
    obtain ⟨j, hj, rfl⟩ := List.mem_take_iff_getElem.1 hq'
    have hj' := lt_min_iff.1 hj
    exact applyTo_eq_none_iff.2 fun b' =>
      hfirst j hj'.1 _ b' (List.getElem?_eq_getElem hj'.2)

theorem firstClause_eq_none (h : ∀ q ∈ clauses, ∀ b, ¬ q.AppliesTo stack b) :
    firstClause stack (clauses.map Quote.toValue) = none := by
  rw [firstClause_eq_findSome?, List.findSome?_eq_none_iff]
  exact fun q hq => applyTo_eq_none_iff.2 (h q hq)

end Action

/-- The word `match` accepts quotes without a pattern that have quotes in their body, and nothing
    else, at least one. -/
theorem Signature.admits_select_iff :
    Word.select.signature.admits stack = true ↔
      ∃ (clauses : List Quote) (base : List Value), clauses ≠ [] ∧
        stack = .ofBody (clauses.map Quote.toValue) :: base := by
  have hmap (body : List Value) : (∀ v ∈ body, ∃ q : Quote, v = q.toValue) ↔
      ∃ clauses : List Quote, clauses.map Quote.toValue = body := by
    simpa [eq_comm] using (Set.ext_iff.1 (Set.range_list_map Quote.toValue) body).symm
  refine admits_clauses.trans ⟨?_, ?_⟩
  · rintro ⟨⟨pattern, body⟩, base, rfl, rfl, hb⟩
    obtain ⟨hne, hq⟩ := Value.accepts_anyQuote_elementTy.1 hb
    obtain ⟨clauses, rfl⟩ := (hmap body).1 hq
    exact ⟨clauses, base, fun h => hne (by rw [h, List.map_nil]), rfl⟩
  · rintro ⟨clauses, base, hne, rfl⟩
    exact ⟨⟨[], clauses.map Quote.toValue⟩, base, rfl, rfl, Value.accepts_anyQuote_elementTy.2
      ⟨fun h => hne (List.map_eq_nil_iff.1 h), (hmap _).2 ⟨clauses, rfl⟩⟩⟩

/-! ### The words -/

namespace State

variable [Host H] {s : State H}

theorem dispatch_call (hs : s.stack = q.toValue :: base) :
    dispatch (.atom Word.call.name) s = Action.callQuote q { s with stack := base } := by
  rw [dispatch_core (Word.ofName?_name .call) (Signature.admits_quote.2 ⟨q, base, hs⟩),
    Word.action, Action.bind_eq_of_ok (Action.popQuote_eq hs)]

theorem dispatch_select (hs : s.stack = q.toValue :: base)
    (ha : Word.select.signature.admits s.stack = true) :
    dispatch (.atom Word.select.name) s =
      Action.selectClause q.body { s with stack := base } := by
  rw [dispatch_core (Word.ofName?_name .select) ha, Word.action,
    Action.bind_eq_of_ok (Action.popQuote_eq hs)]

theorem dispatch_call_of_appliesTo (hs : s.stack = q.toValue :: base)
    (hq : q.AppliesTo base b) :
    dispatch (.atom Word.call.name) s =
      .ok .proceed
        { s with stack := base.drop q.pattern.length, queue := (q.bind b).body ++ s.queue } := by
  rw [dispatch_call hs]
  exact Action.callQuote_eq_of_some (Action.applyTo_eq_some hq)

theorem dispatch_call_of_not_appliesTo (hs : s.stack = q.toValue :: base)
    (hq : ∀ b, ¬ q.AppliesTo base b) :
    dispatch (.atom Word.call.name) s =
      .ok .proceed { s with stack := .nil :: base.drop q.pattern.length } := by
  rw [dispatch_call hs]
  exact Action.callQuote_eq_of_none (Action.applyTo_eq_none_iff.2 hq)

/-- To match is to call the first clause that applies to the stack below the clauses: its
    arguments are taken off, and its bound body is put in front of the queue. If none applies,
    only the clauses are taken off. To call a quote that does not apply is something else: as many
    values are taken off as its pattern is long, or all if there are fewer, and `:nil` is pushed. -/
theorem dispatch_select_first (s : State H) :
    (Word.select.signature.admits s.stack = true ↔
      ∃ (clauses : List Quote) (base : List Value), clauses ≠ [] ∧
        s.stack = .ofBody (clauses.map Quote.toValue) :: base) ∧
    (∀ (clauses : List Quote) (base : List Value), clauses ≠ [] →
      s.stack = .ofBody (clauses.map Quote.toValue) :: base →
        (∀ i, IsLeast {i : Nat | ∃ q b, clauses[i]? = some q ∧ q.AppliesTo base b} i →
          ∃ (q : Quote) (b : Bindings), clauses[i]? = some q ∧ q.AppliesTo base b ∧
            dispatch (.atom Word.select.name) s =
              .ok .proceed { s with
                stack := base.drop q.pattern.length, queue := (q.bind b).body ++ s.queue } ∧
            dispatch (.atom Word.call.name) { s with stack := q.toValue :: base } =
              dispatch (.atom Word.select.name) s) ∧
        ((∀ q ∈ clauses, ∀ b, ¬ q.AppliesTo base b) →
          dispatch (.atom Word.select.name) s = .ok .proceed { s with stack := base })) ∧
    ∀ (q : Quote) (base : List Value), s.stack = q.toValue :: base →
      (∀ b, ¬ q.AppliesTo base b) →
        dispatch (.atom Word.call.name) s =
          .ok .proceed
            { s with stack := .nil :: base.drop (min q.pattern.length base.length) } := by
  refine ⟨Signature.admits_select_iff, fun clauses base hne hs => ?_, fun q base hs hq => ?_⟩
  · have hsel := dispatch_select (q := ⟨[], clauses.map Quote.toValue⟩) hs
      (Signature.admits_select_iff.2 ⟨clauses, base, hne, hs⟩)
    refine ⟨fun i hi => ?_, fun hnone => ?_⟩
    · obtain ⟨⟨q, b, hq, hb⟩, hleast⟩ := hi
      have hfirst := Action.firstClause_eq_some hq hb fun j hj q' b' hq' hb' =>
        absurd (hleast ⟨q', b', hq', hb'⟩) (Nat.not_le.2 hj)
      have hselect := hsel.trans
        (Action.selectClause_eq_of_some (s := { s with stack := base }) hfirst)
      have hcall := dispatch_call_of_appliesTo (s := { s with stack := q.toValue :: base }) rfl hb
      exact ⟨q, b, hq, hb, hselect, hcall.trans hselect.symm⟩
    · exact hsel.trans (Action.selectClause_eq_of_none (Action.firstClause_eq_none hnone))
  · have hdrop : base.drop (min q.pattern.length base.length) = base.drop q.pattern.length := by
      rcases le_total q.pattern.length base.length with h | h
      · rw [min_eq_left h]
      · rw [min_eq_right h, List.drop_length, List.drop_of_length_le h]
    rw [hdrop]
    exact dispatch_call_of_not_appliesTo hs hq

/-- Of four clauses the first is too long for the stack, the second has another literal, and the
    third is called although the fourth applies as well. To call the first spoils the stack. -/
theorem dispatch_select_first_third :
    ∃ (s : State Sandbox) (clauses : List Quote) (base : List Value),
      clauses = [⟨[.atom "x", .atom "y", .atom "z"], []⟩, ⟨[.sym "c"], []⟩,
        ⟨[.atom "x", .atom "y"], [.atom "y", .atom "x"]⟩, ⟨[.atom "x"], []⟩] ∧
      base = [.sym "b", .sym "a"] ∧ s.queue = [.atom "+"] ∧ clauses ≠ [] ∧
      s.stack = .ofBody (clauses.map Quote.toValue) :: base ∧
      IsLeast {i : Nat | ∃ q b, clauses[i]? = some q ∧ q.AppliesTo base b} 2 ∧
      dispatch (.atom Word.select.name) s =
        .ok .proceed { s with stack := [], queue := [.sym "b", .sym "a", .atom "+"] } ∧
      dispatch (.atom Word.call.name)
          { s with stack := .quote [.atom "x", .atom "y", .atom "z"] [] :: base } =
        .ok .proceed { s with stack := [.nil] } := by
  let base : List Value := [.sym "b", .sym "a"]
  let clauses : List Quote := [⟨[.atom "x", .atom "y", .atom "z"], []⟩, ⟨[.sym "c"], []⟩,
    ⟨[.atom "x", .atom "y"], [.atom "y", .atom "x"]⟩, ⟨[.atom "x"], []⟩]
  let s : State Sandbox :=
    { stack := .ofBody (clauses.map Quote.toValue) :: base, queue := [.atom "+"], host := {} }
  have hlong (b : Bindings) : ¬ Quote.AppliesTo ⟨[.atom "x", .atom "y", .atom "z"], []⟩ base b :=
    fun h => absurd h.length_le (by decide)
  have hi : IsLeast {i : Nat | ∃ q b, clauses[i]? = some q ∧ q.AppliesTo base b} 2 := by
    refine ⟨⟨_, _, rfl, Nat.le_refl 2, rfl⟩, ?_⟩
    rintro (_ | _ | i) ⟨q, b, hq, hb⟩
    · cases hq
      exact absurd hb (hlong b)
    · cases hq
      cases hb.match?_eq
    · omega
  obtain ⟨q, b, hq, hb, hselect, -⟩ :=
    ((dispatch_select_first s).2.1 clauses base (List.cons_ne_nil _ _) rfl).1 2 hi
  cases hq
  cases hb.match?_eq
  exact ⟨s, clauses, base, rfl, rfl, rfl, List.cons_ne_nil _ _, rfl, hi, hselect,
    (dispatch_select_first { s with stack := Quote.toValue _ :: base }).2.2 _ base rfl hlong⟩

end State

end Catena
