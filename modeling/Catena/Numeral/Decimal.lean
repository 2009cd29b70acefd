/-!
# Decimals

A `Decimal` is a natural number of digits times a power of ten, without a sign: the
form in which a number is written and read. It stands for the double nearest to it,
and it is written in positional notation only, with as many zeros as that takes.

* `length_scan_lt`: reading a decimal takes at least one character.
-/

namespace Catena

/-- The decimal `digits * 10 ^ exponent`. -/
structure Decimal where
  digits : Nat
  exponent : Int
deriving DecidableEq, Repr

namespace Decimal

/-- The double nearest to a decimal, the one with the even mantissa of two. A decimal
    beyond the doubles gives infinity. -/
def toFloat (d : Decimal) : Float :=
  Float.ofScientific d.digits (d.exponent < 0) d.exponent.natAbs

/-- Digits after the point, without the zeros at their end. -/
def dropFinalZeros (s : List Char) : List Char :=
  (s.reverse.dropWhile (· == '0')).reverse

/-- A decimal in positional notation: at least one digit before the point, and a
    point only where a digit other than zero follows it. -/
def write (d : Decimal) : List Char :=
  let ds := Nat.toDigits 10 d.digits
  if 0 ≤ d.exponent then
    ds ++ List.replicate d.exponent.natAbs '0'
  else
    let places := d.exponent.natAbs
    let padded := List.replicate (places + 1 - ds.length) '0' ++ ds
    let whole := padded.take (padded.length - places)
    let fraction := dropFinalZeros (padded.drop (padded.length - places))
    if fraction.isEmpty then whole else whole ++ '.' :: fraction

/-- The decimal of a run of digits and of the digits after the point. -/
def ofDigits (whole fraction : List Char) : Decimal :=
  ⟨Nat.ofDigitChars 10 (whole ++ fraction) 0, -(fraction.length : Int)⟩

/-- Read a decimal at the front of a text: digits, and after them, if a digit follows
    it, a point with digits. The digits are as many as there are. -/
def scan (s : List Char) : Option (Decimal × List Char) :=
  let whole := s.takeWhile Char.isDigit
  let rest := s.dropWhile Char.isDigit
  if whole.isEmpty then none
  else
    match rest with
    | '.' :: t =>
      let fraction := t.takeWhile Char.isDigit
      if fraction.isEmpty then some (ofDigits whole [], rest)
      else some (ofDigits whole fraction, t.dropWhile Char.isDigit)
    | _ => some (ofDigits whole [], rest)

theorem length_dropWhile_lt {p : Char → Bool} {s : List Char}
    (h : s.takeWhile p ≠ []) : (s.dropWhile p).length < s.length := by
  have hs := congrArg List.length (List.takeWhile_append_dropWhile (p := p) (l := s))
  have hp := List.length_pos_iff.2 h
  simp only [List.length_append] at hs
  omega

theorem length_scan_lt {s rest : List Char} {d : Decimal} (h : scan s = some (d, rest)) :
    rest.length < s.length := by
  unfold scan at h
  simp only [List.isEmpty_iff] at h
  split at h
  · contradiction
  · rename_i hw
    have hs := length_dropWhile_lt hw
    split at h
    · rename_i t ht
      rw [ht] at hs
      simp only [List.length_cons] at hs
      split at h
      · simp only [Option.some.injEq, Prod.mk.injEq] at h
        simp [← h.2, ht, hs]
      · simp only [Option.some.injEq, Prod.mk.injEq] at h
        rw [← h.2]
        have := (List.dropWhile_sublist Char.isDigit (l := t)).length_le
        omega
    · simp only [Option.some.injEq, Prod.mk.injEq] at h
      rw [← h.2]
      exact hs

end Decimal

end Catena
