import Catena.Numeral
import Catena.Text.Character
import Catena.Value

/-!
# Tokens of source text

A token is a bracket, a bar, or a whole value that is no quote. At one place of a text
at most one token begins: a number if a digit stands there, or a minus sign and a
digit; after a colon a symbol; after a quotation mark a string, up to the next mark of
the same kind; else a name of an atom, if a name character stands there. Numbers and
names are as long as they can be.

`lexemes` cuts a text into its tokens, each with the text that begins at it, and gives
the rest of the text, at whose front no token begins.

* `length_scan_lt`: a token takes at least one character.
-/

namespace Catena

/-- A token of source text. -/
inductive Token where
  | opening
  | closing
  | bar
  /-- A value that is no quote. -/
  | item (v : Value)

namespace Token

/-- A name at the front of a text, as long as it can be, and the text after it. -/
def scanName (s : List Char) : Option (String × List Char) :=
  if (s.takeWhile Text.isNameChar).isEmpty then none
  else some (String.ofList (s.takeWhile Text.isNameChar), s.dropWhile Text.isNameChar)

/-- The content of a string, up to the next mark, and the text after that mark. -/
def scanString (mark : Char) (s : List Char) : Option (String × List Char) :=
  match s.dropWhile (· != mark) with
  | [] => none
  | _ :: rest => some (String.ofList (s.takeWhile (· != mark)), rest)

/-- A token at the front of a text that does not begin with a number. -/
def scanMark : List Char → Option (Token × List Char)
  | [] => none
  | c :: s =>
    if c = '[' then some (.opening, s)
    else if c = ']' then some (.closing, s)
    else if c = '|' then some (.bar, s)
    else if c = ':' then (scanName s).map fun (n, rest) => (.item (.sym n), rest)
    else if c = '\'' ∨ c = '\"' then
      (scanString c s).map fun (t, rest) => (.item (.str t), rest)
    else (scanName (c :: s)).map fun (n, rest) => (.item (.atom n), rest)

/-- The token at the front of a text, and the text after it. -/
def scan (s : List Char) : Option (Token × List Char) :=
  match Numeral.scan s with
  | some (x, rest) => some (.item (.num x), rest)
  | none => scanMark s

theorem length_scanName_lt {s rest : List Char} {n : String}
    (h : scanName s = some (n, rest)) : rest.length < s.length := by
  unfold scanName at h
  split at h
  · contradiction
  · rename_i hn
    obtain ⟨-, rfl⟩ := Prod.mk.inj (Option.some.inj h)
    exact Decimal.length_dropWhile_lt (by simpa using hn)

theorem length_scanString_lt {mark : Char} {s rest : List Char} {t : String}
    (h : scanString mark s = some (t, rest)) : rest.length < s.length := by
  unfold scanString at h
  split at h
  · contradiction
  · rename_i c r hr
    obtain ⟨-, rfl⟩ := Prod.mk.inj (Option.some.inj h)
    have hle := (List.dropWhile_sublist (· != mark) (l := s)).length_le
    rw [hr, List.length_cons] at hle
    omega

theorem length_scanMark_lt {s rest : List Char} {t : Token}
    (h : scanMark s = some (t, rest)) : rest.length < s.length := by
  cases s with
  | nil => simp [scanMark] at h
  | cons c s =>
    simp only [scanMark] at h
    split at h
    · simp_all
    split at h
    · simp_all
    split at h
    · simp_all
    split at h
    · obtain ⟨⟨n, r⟩, hn, he⟩ := Option.map_eq_some_iff.1 h
      obtain ⟨-, rfl⟩ := Prod.mk.inj he
      have := length_scanName_lt hn
      simp only [List.length_cons]
      omega
    split at h
    · obtain ⟨⟨u, r⟩, hu, he⟩ := Option.map_eq_some_iff.1 h
      obtain ⟨-, rfl⟩ := Prod.mk.inj he
      have := length_scanString_lt hu
      simp only [List.length_cons]
      omega
    · obtain ⟨⟨n, r⟩, hn, he⟩ := Option.map_eq_some_iff.1 h
      obtain ⟨-, rfl⟩ := Prod.mk.inj he
      exact length_scanName_lt hn

/-- A token takes at least one character. -/
theorem length_scan_lt {s rest : List Char} {t : Token} (h : scan s = some (t, rest)) :
    rest.length < s.length := by
  unfold scan at h
  split at h
  · rename_i x r hx
    obtain ⟨-, rfl⟩ := Prod.mk.inj (Option.some.inj h)
    exact Numeral.length_scan_lt hx
  · exact length_scanMark_lt h

end Token

/-- A token in its place: the text that begins with it. -/
structure Lexeme where
  token : Token
  text : List Char

/-- The tokens of a text in order, and the text left after them: it is empty, or no
    token begins at its front. -/
def lexemes (s : List Char) : List Lexeme × List Char :=
  match _h : Token.scan (s.dropWhile Text.isSeparator) with
  | none => ([], s.dropWhile Text.isSeparator)
  | some (token, after) =>
    let (more, rest) := lexemes after
    (⟨token, s.dropWhile Text.isSeparator⟩ :: more, rest)
termination_by s.length
decreasing_by
  have := Token.length_scan_lt _h
  have := (List.dropWhile_sublist Text.isSeparator (l := s)).length_le
  omega

end Catena
