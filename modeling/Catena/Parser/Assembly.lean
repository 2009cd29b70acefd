import Catena.Parser.Token

/-!
# Assembling values from tokens

The tokens of a text are taken one by one. What has been read so far is an `Assembly`:
the values outside all quotes, and a *frame* for every quote that is still open. A
closing bracket turns the innermost frame into a value and adds it one level further
out. The first bar in a quote ends its pattern.

Assembling stops at a token that may not stand in its place. If a quote is open there,
the place that is reported is that of the outermost open quote: with it, everything in
it is unread. Only a quote that is nested too deeply is reported where it is.
-/

namespace Catena

/-- A quote that is still open. Its values are kept with the latest in front. -/
structure Frame where
  /-- The text that begins with the opening bracket. -/
  start : List Char
  /-- The pattern, once a bar has been read. -/
  pattern : Option (List Value) := none
  /-- The values read since the opening bracket or the bar. -/
  latest : List Value := []

/-- What has been read of a text. -/
structure Assembly where
  /-- The values outside all quotes, the latest in front. -/
  latest : List Value := []
  /-- The open quotes, the innermost in front. -/
  frames : List Frame := []

/-- Why and where assembling stops: the place is the text that begins there. -/
inductive Stop where
  /-- After an opening bracket for which there is no room. -/
  | tooDeep (text : List Char)
  /-- In front of what cannot be read. -/
  | unreadable (text : List Char)

namespace Frame

/-- The quote that a frame becomes when it is closed. -/
def close (f : Frame) : Value :=
  .quote (f.pattern.getD []) f.latest.reverse

end Frame

namespace Assembly

/-- An assembly with one more value at its innermost level. -/
def add (v : Value) (a : Assembly) : Assembly :=
  match a.frames with
  | [] => { a with latest := v :: a.latest }
  | f :: fs => { a with frames := { f with latest := v :: f.latest } :: fs }

/-- The place at which an unreadable text is reported: the outermost open quote, or the
    text itself outside all quotes. -/
def place (a : Assembly) (text : List Char) : List Char :=
  (a.frames.getLast?.map Frame.start).getD text

/-- Take one token, with room for `limit` quotes inside one another. -/
def take (limit : Nat) (a : Assembly) (l : Lexeme) : Except Stop Assembly :=
  match l.token with
  | .item v => .ok (a.add v)
  | .opening =>
    if a.frames.length < limit then .ok { a with frames := { start := l.text } :: a.frames }
    else .error (.tooDeep (l.text.drop 1))
  | .closing =>
    match a.frames with
    | [] => .error (.unreadable l.text)
    | f :: fs => .ok ({ a with frames := fs }.add f.close)
  | .bar =>
    match a.frames with
    | [] => .error (.unreadable l.text)
    | f :: fs =>
      if f.pattern.isSome then .error (.unreadable (a.place l.text))
      else .ok { a with
        frames := { f with pattern := some f.latest.reverse, latest := [] } :: fs }

/-- The values of an assembly at the end of its tokens, where `rest` is the text that
    is left: there must be none, and no open quote. -/
def finish (a : Assembly) (rest : List Char) : Except Stop (List Value) :=
  if a.frames.isEmpty && rest.isEmpty then .ok a.latest.reverse
  else .error (.unreadable (a.place rest))

end Assembly

/-- The values of a text, with at most `limit` quotes inside one another. -/
def assemble (limit : Nat) (source : List Char) : Except Stop (List Value) := do
  let (tokens, rest) := lexemes source
  let a ← tokens.foldlM (Assembly.take limit) {}
  a.finish rest

end Catena
