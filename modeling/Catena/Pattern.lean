import Catena.Dictionary
import Catena.Value

/-!
# Patterns and substitution

A pattern is matched against as many values as it has elements, the deepest of the
stack first. An atom in a pattern is a variable and takes the value at its place; a
variable that stands there twice must meet equal values. Every other element must
equal the value at its place, atoms inside a quote included.

The bindings are put into the body of a quote all at once: atoms are replaced in the
body and in the bodies of quotes inside it, never in a pattern, and a value that was
put in is not looked at again.
-/

namespace Catena

/-- What the variables of a pattern stand for. -/
abbrev Bindings := Dictionary Value

namespace Pattern

/-- One place of a pattern: the bindings, with the place's variable if it is new, or
    `none` if the value does not fit. -/
def matchPlace (bindings : Bindings) (element value : Value) : Option Bindings :=
  match element with
  | .atom name =>
    match bindings.get? name with
    | some bound => if bound == value then some bindings else none
    | none => some (bindings.insert name value)
  | literal => if literal == value then some bindings else none

/-- The places of a pattern in turn. The sequences must have equal lengths. -/
def matchFrom (bindings : Bindings) : (pattern args : List Value) → Option Bindings
  | [], [] => some bindings
  | e :: pattern, v :: args => (matchPlace bindings e v).bind (matchFrom · pattern args)
  | _, _ => none

/-- The bindings under which a pattern fits its arguments, if it does. -/
def match? (pattern args : List Value) : Option Bindings :=
  matchFrom .empty pattern args

end Pattern

namespace Value

mutual

/-- A value with bindings put in: an atom that is bound is replaced, and so are those
    in the body of a quote. Where there are no bindings the body is not gone through. -/
def subst (bindings : Bindings) : Value → Value
  | .atom name => (bindings.get? name).getD (.atom name)
  | .quote pattern body =>
    .quote pattern (if bindings.isEmpty then body else substAll bindings body)
  | v => v

/-- A sequence with bindings put into each value. -/
def substAll (bindings : Bindings) : List Value → List Value
  | [] => []
  | v :: vs => subst bindings v :: substAll bindings vs

end

theorem substAll_eq_map (bindings : Bindings) (vs : List Value) :
    substAll bindings vs = vs.map (subst bindings) := by
  induction vs with
  | nil => rfl
  | cons v vs ih => rw [substAll, ih, List.map_cons]

theorem substAll_of_isEmpty {bindings : Bindings} (h : bindings.isEmpty = true)
    (vs : List Value) : substAll bindings vs = vs := by
  have hv : ∀ v, subst bindings v = v := by
    intro v
    cases v with
    | atom n => rw [subst, Dictionary.get?, List.isEmpty_iff.1 h]; rfl
    | quote p b => rw [subst, if_pos h]
    | _ => rfl
  induction vs with
  | nil => rfl
  | cons v vs ih => rw [substAll, ih, hv]

/-- Not to go through a body makes no difference where there are no bindings. -/
theorem subst_quote (bindings : Bindings) (p b : List Value) :
    subst bindings (.quote p b) = .quote p (substAll bindings b) := by
  rw [subst]
  split
  · rename_i h
    rw [substAll_of_isEmpty h]
  · rfl

end Value

/-- A quote with bindings put into its body. Without any it is left as it is. -/
def Quote.bind (q : Quote) (bindings : Bindings) : Quote :=
  if bindings.isEmpty then q else { q with body := Value.substAll bindings q.body }

/-- The bindings are put into the body, and into nothing else. -/
theorem Quote.bind_eq (q : Quote) (bindings : Bindings) :
    q.bind bindings = { q with body := Value.substAll bindings q.body } := by
  rw [bind]
  split
  · rename_i h
    rw [Value.substAll_of_isEmpty h]
  · rfl

end Catena
