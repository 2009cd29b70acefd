import Catena.Value

/-!
# Structural types

The type of a value is its kind; the type of a quote records one type for the elements
of its pattern and one for those of its body. `Ty.join` is the narrowest type that
describes two others: equal types stay, quote types join position by position, and
other types that differ widen to `any`. The type of no elements at all is `empty`.

A signature may also use `any` and `notEmpty` as wildcards, so `Ty.accepts` is not
symmetric: the signature is on the left, the type of a value on the right.
-/

namespace Catena

/-- A structural type. -/
inductive Ty where
  | num
  | atom
  | sym
  | str
  /-- The type of the elements of an empty sequence. -/
  | empty
  /-- The wildcard of signatures, and the type of elements that differ. -/
  | any
  /-- The wildcard of signatures for all but `empty`. -/
  | notEmpty
  /-- The type of a quote, by the elements of its pattern and of its body. -/
  | quote (pattern body : Ty)
deriving DecidableEq, Repr

namespace Ty

/-- The type of any quote. -/
def anyQuote : Ty := .quote .any .any

/-- The characters that a type is written with. -/
def chars : Ty → List Char
  | .num => "Num".toList
  | .atom => "Atom".toList
  | .sym => "Sym".toList
  | .str => "Str".toList
  | .empty => "Empty".toList
  | .any => "Any".toList
  | .notEmpty => "NotEmpty".toList
  | .quote p b => "Quote(".toList ++ chars p ++ ',' :: ' ' :: chars b ++ [')']

/-- The text of a type. -/
def text (t : Ty) : String := String.ofList t.chars

/-- The text of a list of types. -/
def listText (ts : List Ty) : String :=
  "[" ++ ", ".intercalate (ts.map text) ++ "]"

/-- A type as a value: a kind becomes a symbol, and a quote type a quote that begins
    with the symbol `:Quote`. -/
def toValue : Ty → Value
  | .quote p b => Value.ofBody [.sym "Quote", toValue p, toValue b]
  | t => .sym t.text

/-- The narrowest type that describes two types. -/
def join : Ty → Ty → Ty
  | .quote p b, .quote q c => .quote (join p q) (join b c)
  | s, t => if s = t then s else .any

/-- Whether a type satisfies a type of a signature. -/
def accepts : Ty → Ty → Bool
  | .any, _ => true
  | .notEmpty, t => t ≠ .empty
  | .quote p b, .quote q c => accepts p q && accepts b c
  | s, t => s = t

end Ty

namespace Value

mutual

/-- The structural type of a value. -/
def ty : Value → Ty
  | .num _ => .num
  | .atom _ => .atom
  | .sym _ => .sym
  | .str _ => .str
  | .quote pattern body => .quote (elementTy pattern) (elementTy body)

/-- The type that describes all elements of a sequence; `empty` if there are none. -/
def elementTy : List Value → Ty
  | [] => .empty
  | v :: vs => widen (ty v) vs

/-- A type widened to describe the elements of a sequence too. -/
def widen (t : Ty) : List Value → Ty
  | [] => t
  | v :: vs => widen (t.join (ty v)) vs

end

end Value

/-- The types that a word requires on top of the stack, the deepest first. -/
abbrev Signature := List Ty

/-- The types of the topmost `n` values of a stack, or of all if there are fewer, the
    deepest first. The stack has its top in front. -/
def topTypes (n : Nat) (stack : List Value) : List Ty :=
  ((stack.take n).map Value.ty).reverse

/-- Whether the top of a stack satisfies a signature: there are enough values, and the
    type at each place is accepted. -/
def Signature.admits (required : Signature) (stack : List Value) : Bool :=
  let actual := topTypes required.length stack
  actual.length == required.length &&
    (required.zip actual).all fun (s, t) => s.accepts t

end Catena
