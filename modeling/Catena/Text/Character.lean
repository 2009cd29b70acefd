/-!
# Characters of names and separators

Source text is made of names, numbers, strings and brackets. A *separator* stands
between items; a *name character* may stand in the name of an atom or a symbol.
The three classes that a name may not touch are separators, ASCII digits and the
six reserved marks.

* `not_isNameChar_of_isSeparator`, `not_isNameChar_of_isDigit`: a name ends where
  a separator or a number begins.
-/

namespace Catena.Text

/-- The characters that separate items: space, tab, line feed, carriage return. -/
def isSeparator (c : Char) : Bool :=
  c == ' ' || c == '\t' || c == '\n' || c == '\r'

/-- The marks with a meaning of their own, which no name contains. -/
def isReserved (c : Char) : Bool :=
  c == '[' || c == ']' || c == '|' || c == ':' || c == '\'' || c == '\"'

/-- The characters of names: all but ASCII digits, separators and reserved marks. -/
def isNameChar (c : Char) : Bool :=
  !c.isDigit && !isSeparator c && !isReserved c

/-- A text that reads as one name: it is not empty and has name characters only. -/
def isName (s : List Char) : Bool :=
  !s.isEmpty && s.all isNameChar

theorem not_isNameChar_of_isSeparator {c : Char} (h : isSeparator c = true) :
    isNameChar c = false := by
  simp [isNameChar, h]

theorem not_isNameChar_of_isDigit {c : Char} (h : c.isDigit = true) :
    isNameChar c = false := by
  simp [isNameChar, h]

end Catena.Text
