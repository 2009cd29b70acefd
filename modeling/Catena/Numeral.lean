import Catena.Numeral.Shortest

/-!
# Numerals

Numbers are doubles. A numeral in source text is an optional minus sign and a decimal;
a number is written as its shortest decimal, with a minus sign also for the negative
zero, and the three doubles that are no numbers as `inf`, `-inf` and `NaN`, which are
not numerals of source text.

* `length_scan_lt`: reading a numeral takes at least one character.
-/

namespace Catena.Numeral

open Float.Model (UnpackedFloat)

/-- A minus sign for a negative number, and nothing for a positive one. -/
def sign : UnpackedFloat.Sign → List Char
  | .negative => ['-']
  | .positive => []

/-- The text of a number. -/
def write (x : Float) : List Char :=
  match x.toModel.unpack with
  | .notANumber => ['N', 'a', 'N']
  | .infinity s => sign s ++ ['i', 'n', 'f']
  | .zero s => sign s ++ ['0']
  | .finite s mantissa exponent _ =>
    sign s ++ (Decimal.shortest x.abs mantissa exponent).write

/-- Read a numeral at the front of a text. -/
def scan : List Char → Option (Float × List Char)
  | '-' :: s => (Decimal.scan s).map fun (d, rest) => (-d.toFloat, rest)
  | s => (Decimal.scan s).map fun (d, rest) => (d.toFloat, rest)

/-- The number of a whole text: a numeral, or one of the texts `inf`, `-inf`, `NaN`. -/
def read (s : List Char) : Option Float :=
  match scan s with
  | some (x, []) => some x
  | some _ => none
  | none =>
    if s = ['i', 'n', 'f'] then some (1 / 0)
    else if s = ['-', 'i', 'n', 'f'] then some (-(1 / 0))
    else if s = ['N', 'a', 'N'] then some (0 / 0)
    else none

theorem length_scan_lt {s rest : List Char} {x : Float} (h : scan s = some (x, rest)) :
    rest.length < s.length := by
  unfold scan at h
  split at h
  · obtain ⟨⟨d, r⟩, hd, he⟩ := Option.map_eq_some_iff.1 h
    obtain ⟨-, rfl⟩ := Prod.mk.inj he
    have := Decimal.length_scan_lt hd
    simp only [List.length_cons]
    omega
  · obtain ⟨⟨d, r⟩, hd, he⟩ := Option.map_eq_some_iff.1 h
    obtain ⟨-, rfl⟩ := Prod.mk.inj he
    exact Decimal.length_scan_lt hd

end Catena.Numeral
