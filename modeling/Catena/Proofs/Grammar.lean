import Catena.Numeral.Decimal
import Catena.Text.Character
import Catena.Value

/-!
# The grammar of source text

A program is a sequence of items, with any number of separators around them. Which item
begins at a place of a text is an ordered choice:

* a *number*, if a numeral begins there: the longest one, `-?digits(.digits)?`;
* else a *symbol*: a colon, and the longest name after it;
* else a *string*: a mark, all up to the next mark of the same kind, and that mark;
* else a *quote*: items in brackets, with at most one bar among them, the pattern in front
  of it and the body behind it;
* else an *atom*: the longest name.

The grammar says which texts are programs, and nothing about how they are read. A
derivation of a text is a tree (`Node`) with all that stands in the text, separators too;
`Derives` says of which texts it is a derivation, and `values` what it stands for. How
deep quotes are nested is a property of the tree (`depth`).
-/

namespace Catena.Grammar

/-! ### Numerals and names -/

/-- A numeral: an optional minus sign, digits, and optionally a point with digits after it.
    Without a point the fraction is empty. -/
@[ext]
structure Numeral where
  negative : Bool
  whole : List Char
  fraction : List Char
  whole_ne_nil : whole ≠ []
  isDigit_whole : ∀ c ∈ whole, c.isDigit = true
  isDigit_fraction : ∀ c ∈ fraction, c.isDigit = true

namespace Numeral

/-- The minus sign of a negative numeral. -/
def sign (n : Numeral) : List Char :=
  if n.negative then ['-'] else []

/-- The point with the digits after it. -/
def point (n : Numeral) : List Char :=
  if n.fraction = [] then [] else '.' :: n.fraction

/-- A numeral as it is written. -/
def text (n : Numeral) : List Char :=
  n.sign ++ (n.whole ++ n.point)

/-- The number that a numeral stands for: the double nearest to its decimal, which is
    infinite beyond the doubles. -/
def value (n : Numeral) : Float :=
  if n.negative then -(Decimal.ofDigits n.whole n.fraction).toFloat
  else (Decimal.ofDigits n.whole n.fraction).toFloat

end Numeral

/-- The texts of numerals. -/
def IsNumeral (t : List Char) : Prop := ∃ n : Numeral, n.text = t

/-- The texts of names. -/
def IsName (t : List Char) : Prop := Text.isName t = true

instance : DecidablePred IsName := fun t => inferInstanceAs (Decidable (Text.isName t = true))

/-- The text `t` is the longest one of a class at the front of `s`, and `rest` follows it. -/
structure Longest (L : List Char → Prop) (s t rest : List Char) : Prop where
  eq : s = t ++ rest
  mem : L t
  maximal : ∀ t' rest', s = t' ++ rest' → L t' → t'.length ≤ t.length

/-! ### Items -/

/-- An item that is no quote. -/
inductive Leaf where
  | number (n : Numeral)
  | symbol (name : List Char)
  | string (mark : Char) (content : List Char)
  | atom (name : List Char)

/-- The value that an item stands for. -/
def Leaf.value : Leaf → Value
  | number n => .num n.value
  | symbol name => .sym (String.ofList name)
  | string _ content => .str (String.ofList content)
  | atom name => .atom (String.ofList name)

/-- The item at the front of a text, if it is no quote, and the text after it. The choice
    between a number and an atom is the only one that the first character leaves open. -/
inductive LeafAt : List Char → Leaf → List Char → Prop
  | number {n s rest} : Longest IsNumeral s n.text rest → LeafAt s (.number n) rest
  | symbol {name s rest} : Longest IsName s name rest → LeafAt (':' :: s) (.symbol name) rest
  | string {mark content rest} : mark = '\'' ∨ mark = '\"' → mark ∉ content →
    LeafAt (mark :: (content ++ mark :: rest)) (.string mark content) rest
  | atom {name s rest} : (∀ t rest', s = t ++ rest' → ¬ IsNumeral t) →
    Longest IsName s name rest → LeafAt s (.atom name) rest

/-! ### Derivations -/

/-- A part of a derivation. -/
inductive Node where
  /-- A separator. -/
  | blank (c : Char)
  | leaf (l : Leaf)
  /-- A quote without a bar. -/
  | block (body : List Node)
  /-- A quote with a bar. -/
  | clause (pattern body : List Node)

/-- A sequence of items and separators at the front of a text, and the text after it. -/
inductive Derives : List Char → List Node → List Char → Prop
  | done {s} : Derives s [] s
  | blank {c s ns rest} : Text.isSeparator c = true → Derives s ns rest →
    Derives (c :: s) (.blank c :: ns) rest
  | leaf {l s s' ns rest} : LeafAt s l s' → Derives s' ns rest →
    Derives s (.leaf l :: ns) rest
  | block {s s' body ns rest} : Derives s body (']' :: s') → Derives s' ns rest →
    Derives ('[' :: s) (.block body :: ns) rest
  | clause {s s' s'' pattern body ns rest} : Derives s pattern ('|' :: s') →
    Derives s' body (']' :: s'') → Derives s'' ns rest →
    Derives ('[' :: s) (.clause pattern body :: ns) rest

mutual

/-- The value that a part of a derivation stands for: none, if it is a separator. A quote
    without a bar has an empty pattern. -/
def Node.value? : Node → Option Value
  | .blank _ => none
  | .leaf l => some l.value
  | .block body => some (.quote [] (values body))
  | .clause pattern body => some (.quote (values pattern) (values body))

/-- The values that a derivation stands for. -/
def values : List Node → List Value
  | [] => []
  | n :: ns => n.value?.toList ++ values ns

end

mutual

/-- How many quotes stand inside one another in a part of a derivation. -/
def Node.depth : Node → Nat
  | .blank _ => 0
  | .leaf _ => 0
  | .block body => depth body + 1
  | .clause pattern body => max (depth pattern) (depth body) + 1

/-- How many quotes stand inside one another in a derivation. -/
def depth : List Node → Nat
  | [] => 0
  | n :: ns => max n.depth (depth ns)

end

end Catena.Grammar
