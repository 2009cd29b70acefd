import Catena.Parser.Assembly
import Catena.Parser.Error

/-!
# Parsing source text

A program is a sequence of values with separators around them, where none is needed
next to a bracket or a quotation mark. The whole text must be read; otherwise the
*diagnosis* tells what stands at the first place that could not be read.

At an opening bracket the diagnosis looks at all the text that follows. If there is a
bracket without its partner, or a string without its end, the quote is unclosed, and
more text may make it whole; else it is malformed.
-/

namespace Catena.Parser

/-- How many quotes may stand inside one another if nothing else is said. -/
def defaultDepth : Nat := 128

/-- Whether every opening bracket of a text has its closing one and every string its
    end, given how many brackets are open and the mark of an open string. Brackets in
    strings do not count, and neither do closing brackets without a partner. -/
def balanced (depth : Nat) : Option Char → List Char → Bool
  | mark, [] => depth == 0 && mark.isNone
  | some mark, c :: s => balanced depth (if c = mark then none else some mark) s
  | none, c :: s =>
    if c = '\'' ∨ c = '\"' then balanced depth (some c) s
    else if c = '[' then balanced (depth + 1) none s
    else if c = ']' then balanced (depth - 1) none s
    else balanced depth none s

/-- What is wrong with a text that cannot be read from its first character on. -/
def complaint : List Char → Complaint
  | [] => .leftover
  | c :: s =>
    if (c = '\'' ∨ c = '\"') ∧ c ∉ s then .unterminatedString
    else if c = '[' then
      if balanced 0 none (c :: s) then .malformedQuote else .unclosedQuote
    else if c = ']' then .strayClosing
    else if c = '|' then .strayBar
    else if c = ':' then .missingSymbolName
    else .leftover

/-- The cause for which parsing stops, and the text that begins at the place. -/
def diagnosis (limit : Nat) : Stop → Complaint × List Char
  | .tooDeep text => (.tooDeep limit, text)
  | .unreadable text => (complaint text, text)

/-- The error for a cause at a place of a text, the place given by the text that begins
    there. -/
def errorAt (source : List Char) : Complaint × List Char → ParseError
  | (c, text) =>
    let offset := Text.byteLength source - Text.byteLength text
    .atOffset c.kind (c.message offset) source offset

/-- The values of a program, with at most `limit` quotes inside one another. -/
def parseChars (limit : Nat) (source : List Char) : Except ParseError (List Value) :=
  (assemble limit source).mapError fun stop => errorAt source (diagnosis limit stop)

/-- The values of a program given as a string. -/
def parse (limit : Nat) (source : String) : Except ParseError (List Value) :=
  parseChars limit source.toList

end Catena.Parser
