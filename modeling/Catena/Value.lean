/-!
# Values

Code and data share one representation. A value is a number, an *atom* (a name that
stands for itself until it is carried out), a *symbol* (an opaque tag), a string, or a
*quote*: a block with a pattern of formal arguments and a body. Both halves of a quote
are sequences that grow and shrink at their ends.

Equality of values is structural, with the equality of doubles at the leaves: a value
that holds a NaN differs from itself, and `-0` equals `0`.

* `Value.induction`: a property of all values from a property of quotes whose elements
  have it;
* `Value.beqList_eq`: sequences are equal when they are so element by element.
-/

namespace Catena

/-- A datum of the language. -/
inductive Value where
  /-- A double. -/
  | num (x : Float)
  /-- A name: a variable of a pattern, or a word to carry out. -/
  | atom (name : String)
  /-- An opaque tag; its name is without the leading colon. -/
  | sym (name : String)
  /-- A text. -/
  | str (text : String)
  /-- A block of code or data. -/
  | quote (pattern body : List Value)

/-- A block of code or data, as a value of its own type: what a name is bound to. -/
structure Quote where
  /-- The formal arguments, taken from the stack when the quote is called. -/
  pattern : List Value := []
  /-- What is carried out, or looked at as data. -/
  body : List Value := []

namespace Quote

/-- A quote as a value. -/
def toValue (q : Quote) : Value := .quote q.pattern q.body

/-- The quote with one more value at the end of its body. -/
def push (q : Quote) (v : Value) : Quote := { q with body := q.body ++ [v] }

/-- The last value of the body, and the quote without it. -/
def pop? (q : Quote) : Option (Value × Quote) :=
  q.body.getLast?.map fun v => (v, { q with body := q.body.dropLast })

/-- The quote with one more value at the end of its pattern. -/
def pushPattern (q : Quote) (v : Value) : Quote := { q with pattern := q.pattern ++ [v] }

/-- The last value of the pattern, and the quote without it. -/
def popPattern? (q : Quote) : Option (Value × Quote) :=
  q.pattern.getLast?.map fun v => (v, { q with pattern := q.pattern.dropLast })

end Quote

namespace Value

/-- The truth values: `:true` and `:nil`. -/
def truth (b : Bool) : Value := .sym (if b then "true" else "nil")

/-- The symbol of what is absent or false. -/
def nil : Value := .sym "nil"

/-- The symbol of success. -/
def ok : Value := .sym "ok"

/-- The symbol of failure. -/
def notOk : Value := .sym "not-ok"

/-- An integer as a number: the double nearest to it. -/
def ofInt (n : Int) : Value := .num (Float.ofInt n)

/-- A quote without a pattern. -/
def ofBody (body : List Value) : Value := .quote [] body

mutual

/-- Structural equality, with the equality of doubles at the leaves. -/
def beq : Value → Value → Bool
  | .num x, .num y => x == y
  | .atom m, .atom n => m == n
  | .sym m, .sym n => m == n
  | .str s, .str t => s == t
  | .quote p b, .quote q c => beqList p q && beqList b c
  | _, _ => false

/-- Equality of sequences: equal lengths, and equal values at each place. -/
def beqList : List Value → List Value → Bool
  | [], [] => true
  | v :: vs, w :: ws => beq v w && beqList vs ws
  | _, _ => false

end

instance : BEq Value := ⟨beq⟩

theorem beqList_eq (vs ws : List Value) : beqList vs ws = (vs == ws) := by
  induction vs generalizing ws with
  | nil => cases ws <;> rfl
  | cons v vs ih =>
    cases ws with
    | nil => rfl
    | cons w ws =>
      rw [beqList, ih]
      rfl

/-- A property holds of every value if it holds of those that are no quotes, and of a
    quote whenever it holds of all elements of its pattern and body. -/
theorem induction {P : Value → Prop} (num : ∀ x, P (.num x)) (atom : ∀ n, P (.atom n))
    (sym : ∀ n, P (.sym n)) (str : ∀ t, P (.str t))
    (quote : ∀ p b, (∀ v ∈ p, P v) → (∀ v ∈ b, P v) → P (.quote p b)) (v : Value) : P v :=
  Value.rec (motive_1 := P) (motive_2 := fun vs => ∀ v ∈ vs, P v) num atom sym str quote
    (by simp) (fun _ _ hv hvs w hw => by
      rcases List.mem_cons.1 hw with rfl | hw
      · exact hv
      · exact hvs w hw) v

end Value

end Catena
