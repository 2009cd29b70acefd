import Catena.Text.Offset

/-!
# Errors of the parser

A complaint is the cause for which a text is no program, and its kind a coarse class of
causes; its message names the byte offset at which reading stopped. A `ParseError` is
what a reader of the message sees: it carries the character found there and a window of
the text around it.

The window begins at most twenty bytes before the offset, at the last character
boundary there, and has at most a hundred characters. An ellipsis in brackets stands on
either side where text is left out, and the window is shown on one line.
-/

namespace Catena

/-- A class of parse errors. -/
inductive ParseError.Kind where
  /-- A character or bracket where none may stand. -/
  | invalidSyntax
  /-- The text ends before the program does. -/
  | incomplete
  /-- Quotes are nested more deeply than allowed. -/
  | tooDeeplyNested
  /-- Text is left after a valid program. -/
  | trailingContent
deriving DecidableEq, Repr

/-- Why a text is no program, as it is told to the reader. -/
structure ParseError where
  kind : ParseError.Kind
  message : String
  /-- The window of the text around the place. -/
  context : Option String
  /-- The character at the place. -/
  found : Option String
deriving DecidableEq, Repr

namespace ParseError

/-- How many bytes before the place the window may begin. -/
def contextBefore : Nat := 20

/-- How many characters the window may have. -/
def contextLength : Nat := 100

/-- What stands for text that is left out. -/
def ellipsis : List Char := "[...]".toList

/-- A text on one line: a line feed is shown as a backslash and an `n`, and a carriage
    return not at all. -/
def onOneLine (s : List Char) : List Char :=
  s.flatMap fun c => if c = '\n' then ['\\', 'n'] else if c = '\r' then [] else [c]

/-- The window of a text around a byte offset. -/
def window (source : List Char) (offset : Nat) : List Char :=
  let (before, after) := Text.splitAtByte (offset - contextBefore) source
  (if before.isEmpty then [] else ellipsis) ++ onOneLine (after.take contextLength) ++
    (if (after.drop contextLength).isEmpty then [] else ellipsis)

/-- An error at a byte offset of a text, which may lie inside a character or beyond the
    end: then no character is found there. -/
def atOffset (kind : Kind) (message : String) (source : List Char) (offset : Nat) :
    ParseError where
  kind := kind
  message := message
  context := some (String.ofList (window source offset))
  found := (Text.charAtByte? offset source).map fun c => String.ofList [c]

/-- The whole text of an error, with a line each for what was found and the window. -/
def text (e : ParseError) : String :=
  "ParseError: " ++ e.message ++
    (e.found.map ("\nFound: " ++ ·)).getD "" ++
    (e.context.map ("\nContext: " ++ ·)).getD ""

end ParseError

/-- A cause for which a text is no program. -/
inductive Complaint where
  /-- A quote opens inside as many quotes as are allowed. -/
  | tooDeep (limit : Nat)
  | unterminatedString
  | unclosedQuote
  | malformedQuote
  | strayClosing
  | strayBar
  | missingSymbolName
  | leftover
deriving DecidableEq, Repr

namespace Complaint

/-- The class of a cause. -/
def kind : Complaint → ParseError.Kind
  | tooDeep _ => .tooDeeplyNested
  | unterminatedString | unclosedQuote => .incomplete
  | malformedQuote | strayClosing | strayBar | missingSymbolName => .invalidSyntax
  | leftover => .trailingContent

/-- The message for a cause at a byte offset. -/
def message (offset : Nat) : Complaint → String
  | tooDeep limit => s!"Quote nesting too deep (max depth: {limit})"
  | unterminatedString => s!"Unterminated string starting at position {offset}"
  | unclosedQuote => s!"Unclosed quote starting at position {offset}"
  | malformedQuote => s!"Malformed quote at position {offset}"
  | strayClosing => s!"Unexpected ']' at position {offset}"
  | strayBar => s!"Unexpected '|' outside a quote at position {offset}"
  | missingSymbolName => s!"Expected a symbol name after ':' at position {offset}"
  | leftover => s!"Unexpected input at position {offset}"

end Complaint

end Catena
