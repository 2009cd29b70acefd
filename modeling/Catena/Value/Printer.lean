import Catena.Numeral
import Catena.Value

/-!
# Printing values

The text of a value is source text for it: a number as its shortest numeral, an atom as
its name, a symbol with a colon, a string between marks that it does not contain, and a
quote in brackets with a blank around every item and a bar after a pattern that is not
empty. A string with a double mark is put between single ones, since the language has
no escapes; one with both marks has no source text.

`Value.debugText` is another text, which names the kind of every value.
-/

namespace Catena.Value

/-- The mark that delimits a string: the double one, unless the string contains it. -/
def stringMark (text : List Char) : Char :=
  if text.contains '\"' then '\'' else '\"'

mutual

/-- The characters that a value is written with. -/
def chars : Value → List Char
  | .num x => Numeral.write x
  | .atom name => name.toList
  | .sym name => ':' :: name.toList
  | .str text =>
    let mark := stringMark text.toList
    mark :: (text.toList ++ [mark])
  | .quote pattern body =>
    '[' :: ((if pattern.isEmpty then [] else spaced pattern ++ [' ', '|']) ++
      spaced body ++ [' ', ']'])

/-- The characters of a sequence, with a blank in front of each value. -/
def spaced : List Value → List Char
  | [] => []
  | v :: vs => ' ' :: (chars v ++ spaced vs)

end

/-- The characters of a sequence, with a blank between two values. -/
def joined : List Value → List Char
  | [] => []
  | v :: vs => chars v ++ spaced vs

/-- The text of a value. -/
def text (v : Value) : String := String.ofList v.chars

/-- The text of a sequence of values, as a stack is shown. -/
def sequenceText (vs : List Value) : String := String.ofList (joined vs)

mutual

/-- The characters of a value's text for inspection. -/
def debugChars : Value → List Char
  | .num x => "Num(".toList ++ Numeral.write x ++ [')']
  | .atom name => "Atom(".toList ++ name.toList ++ [')']
  | .sym name => "Sym(".toList ++ name.toList ++ [')']
  | .str text => "Str(\"".toList ++ text.toList ++ ['\"', ')']
  | .quote pattern body =>
    "Quote(pattern=[".toList ++ debugListed pattern ++ "], body=[".toList ++
      debugListed body ++ [']', ')']

/-- The texts for inspection of a sequence, with commas between them. -/
def debugListed : List Value → List Char
  | [] => []
  | [v] => debugChars v
  | v :: vs => debugChars v ++ ',' :: ' ' :: debugListed vs

end

/-- A value's text for inspection: the kind of every value in it, with its content. -/
def debugText (v : Value) : String := String.ofList v.debugChars

end Catena.Value
