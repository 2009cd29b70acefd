import Catena.Proofs.Application
import Catena.Proofs.Composition

/-!
# Words that shuffle the stack

A word like `swap` or `dup` is bound to a quote whose body has nothing in it to carry out: only
variables of its pattern, and literals. Such a word takes its arguments off the stack and puts
back what its body says, in that order, each variable with the argument that it stands for. An
argument is put back as it is, also if it is a quote full of atoms.

How long this takes is counted in items (`State.After`): one for the word, one for its quote, one
for the word `call`, and one for each element of the body.

* `State.After.proceed_eq`: a run goes on behind the items that it has carried out;
* `State.after_literals`: literals are pushed one by one;
* `State.after_shuffle`: what a word does that shuffles the stack.
-/

namespace Catena

variable {H : Type}

/-! ### Bodies without words -/

namespace Quote

variable {q : Quote} {args : List Value} {b : Bindings}

/-- The body of a quote has only variables of the pattern and literals in it. -/
def Shuffles (q : Quote) : Prop := ∀ n, .atom n ∈ q.body → .atom n ∈ q.pattern

/-- Once it is bound to arguments that are no atoms, such a body has no atoms in it either. -/
theorem Shuffles.literal (hq : q.Shuffles) (ha : ∀ n, .atom n ∉ args)
    (hm : Pattern.match? q.pattern args = some b) :
    ∀ v ∈ q.body.map (Value.subst b), ∀ n, v ≠ .atom n := by
  rw [List.forall_mem_map]
  intro v hv m hvm
  cases v with
  | atom n =>
    obtain ⟨w, hw⟩ := (Pattern.exists_get?_of_match? hm).2 (hq n hv)
    rw [Value.subst, hw, Option.getD_some] at hvm
    exact ha m (hvm ▸ Pattern.mem_of_match? hm hw)
  | quote p c =>
    rw [Value.subst_quote] at hvm
    cases hvm
  | _ => cases hvm

/-- A quote applies to a stack that has arguments on top which its pattern matches, and takes no
    others off it. -/
theorem appliesTo_append (hm : Pattern.match? q.pattern args = some b) (base : List Value) :
    q.AppliesTo (args.reverse ++ base) b ∧
      (args.reverse ++ base).drop q.pattern.length = base := by
  have hl : args.reverse.length = q.pattern.length := by
    rw [List.length_reverse]
    exact (Pattern.exists_match?_iff.1 ⟨b, hm⟩).length
  rw [appliesTo_iff, ← hl, List.take_left, List.drop_left, List.reverse_reverse]
  exact ⟨hm, rfl⟩

end Quote

/-! ### So many items later -/

namespace State

/-- The state after so many items have been carried out, none of which runs a text. -/
inductive After [Host H] : Nat → State H → State H → Prop
  | zero {s} : After 0 s s
  | succ {n s t u s' v} : s.turn = .item v t → dispatch v t = .ok .proceed u → After n u s' →
    After (n + 1) s s'

variable [Host H] {s s' s'' : State H} {k l fuel : Nat} {v : Value} {vs rest base args : List Value}
  {w : String} {q : Quote} {b : Bindings}

theorem After.trans (h : After k s s') (h' : After l s' s'') : After (k + l) s s'' := by
  induction h with
  | zero => rwa [Nat.zero_add]
  | succ ht hd _ ih =>
    rw [Nat.add_right_comm]
    exact .succ ht hd (ih h')

/-- A run goes on behind the items that it has carried out. -/
theorem After.proceed_eq (h : After k s s') (fuel : Nat) :
    proceed (k + fuel) s = proceed fuel s' := by
  induction h with
  | zero => rw [Nat.zero_add]
  | succ ht hd _ ih =>
    rw [Nat.add_right_comm, proceed_of_item ht, carryOut_of_proceed hd]
    exact ih

/-- Literals at the front of the queue are pushed one by one. -/
theorem after_literals (hs : s.halted = false) (hn : s.limits.steps = none)
    (hv : ∀ v ∈ vs, ∀ n, v ≠ .atom n) (hq : s.queue = vs ++ rest) :
    After vs.length s { s with
      stack := vs.reverse ++ s.stack, queue := rest, steps := s.steps + vs.length } := by
  induction vs generalizing s with
  | nil =>
    obtain rfl : s.queue = rest := hq
    exact .zero
  | cons v vs ih =>
    rw [List.forall_mem_cons] at hv
    have h := ih (s := { s with
      stack := v :: s.stack, queue := vs ++ rest, steps := s.steps + 1 }) hs hn hv.2 rfl
    refine .succ (turn_cons hs hn hq) (dispatch_literal hv.1) ?_
    rw [List.reverse_cons, List.append_assoc, List.length_cons, Nat.add_comm vs.length,
      ← Nat.add_assoc]
    exact h

/-- A bound word that applies to the stack has its bound body in front of the queue after three
    items: itself, its quote, and the word `call`. -/
theorem after_word (hs : s.halted = false) (hn : s.limits.steps = none)
    (hw : Word.ofName? w = none) (hq : s.env.get? w = some q) (ha : q.AppliesTo s.stack b)
    (hqueue : s.queue = .atom w :: rest) :
    After 3 s { s with
      stack := s.stack.drop q.pattern.length, queue := (q.bind b).body ++ rest,
      steps := s.steps + 3 } := by
  refine .succ (turn_cons hs hn hqueue)
    (Carries.bound (s := { s with queue := rest, steps := s.steps + 1 }) hw hq).dispatch_eq ?_
  refine .succ (turn_cons hs hn rfl) (dispatch_literal nofun) ?_
  exact .succ (turn_cons hs hn rfl) (dispatch_call_of_appliesTo rfl ha) .zero

/-- A word that is bound to a quote which shuffles the stack carries out its body as it says. It
    takes three items, and one more for each element of the body, until the arguments have been
    replaced by the body with the variables put in. Nothing else has changed, and the run goes on
    from there. -/
theorem after_shuffle (base : List Value) (hs : s.halted = false) (hn : s.limits.steps = none)
    (hw : Word.ofName? w = none) (hq : s.env.get? w = some q) (hbody : q.Shuffles)
    (ha : ∀ n, .atom n ∉ args) (hm : Pattern.match? q.pattern args = some b)
    (hqueue : s.queue = .atom w :: rest) (hstack : s.stack = args.reverse ++ base) :
    ∃ s', s' = { s with
        stack := (q.body.map (Value.subst b)).reverse ++ base, queue := rest,
        steps := s.steps + (3 + q.body.length) } ∧
      After (3 + q.body.length) s s' ∧
      ∀ fuel, proceed (3 + q.body.length + fuel) s = proceed fuel s' := by
  have hbound : (q.bind b).body = q.body.map (Value.subst b) := by
    rw [Quote.bind_eq, Value.substAll_eq_map]
  obtain ⟨happlies, hdrop⟩ := Quote.appliesTo_append hm base
  have hword := after_word hs hn hw hq (hstack ▸ happlies) hqueue
  have hpush := after_literals (s := { s with
    stack := base, queue := q.body.map (Value.subst b) ++ rest, steps := s.steps + 3 }) hs hn
    (hbody.literal ha hm) rfl
  rw [hbound, hstack, hdrop] at hword
  rw [List.length_map] at hpush
  have h := hword.trans hpush
  exact ⟨_, by rw [Nat.add_assoc], h, h.proceed_eq⟩

/-- A word with a literal between its variables, and with a quote in its body. The argument for
    `x` has an atom in it that is another variable. -/
theorem after_shuffle_quotes :
    ∃ (s s' : State Sandbox) (q : Quote),
      q = ⟨[.atom "x", .sym "a", .atom "y"],
        [.atom "y", .quote [.atom "x"] [.atom "x", .atom "+"], .atom "x"]⟩ ∧
      s.env.get? "w" = some q ∧ s.halted = false ∧ s.limits.steps = none ∧
      s.stack = [.str "b", .sym "a", .quote [] [.atom "y"], .sym "c"] ∧
      s.queue = [.atom "w", .sym "d"] ∧ q.Shuffles ∧ After 6 s s' ∧
      s'.stack = [.quote [] [.atom "y"], .quote [.atom "x"] [.quote [] [.atom "y"], .atom "+"],
        .str "b", .sym "c"] ∧
      s'.queue = [.sym "d"] ∧ s'.env = s.env := by
  let q : Quote := ⟨[.atom "x", .sym "a", .atom "y"],
    [.atom "y", .quote [.atom "x"] [.atom "x", .atom "+"], .atom "x"]⟩
  let s : State Sandbox := {
    stack := [.str "b", .sym "a", .quote [] [.atom "y"], .sym "c"]
    queue := [.atom "w", .sym "d"]
    env := Dictionary.empty.insert "w" q
    host := {} }
  have hbody : q.Shuffles := by simp [Quote.Shuffles, q]
  have hm : Pattern.match? q.pattern [.quote [] [.atom "y"], .sym "a", .str "b"] = some _ := rfl
  obtain ⟨s', rfl, ha, -⟩ := after_shuffle (s := s) (q := q) [.sym "c"] rfl rfl (by decide) rfl
    hbody (by simp) hm rfl rfl
  exact ⟨s, _, q, rfl, rfl, rfl, rfl, rfl, rfl, hbody, ha, rfl, rfl, rfl⟩

end State

end Catena
