import Catena.Numeral.Decimal

/-!
# Shortest decimals

A finite double is written with the fewest digits that read back as the same double.
Of the decimals with that many digits the nearest to the double is taken, and of two
that are equally near the larger one.

The search is on grids: on the grid of the multiples of a power of ten, only the two
neighbours of the double can be the nearest decimal, so the first grid on which one of
them reads back, going from one digit to seventeen, gives the answer. All comparisons
are between natural numbers.

* `toFloat_onGrid`: what a grid gives reads back.
-/

namespace Catena.Decimal

/-- The number of decimal digits of a positive number. -/
def digitCount (n : Nat) : Nat :=
  (Nat.toDigits 10 n).length

/-- The least `k` such that the positive quotient `num / den` is below `10 ^ k`. -/
def magnitude (num den : Nat) : Int :=
  if den ≤ num then digitCount (num / den)
  else 1 - (digitCount ((den - 1) / num) : Int)

/-- The decimal on the grid of multiples of `10 ^ grid` that reads back as `x` and is
    nearest to `num / den`, the value of `x`, if one does. -/
def onGrid (x : Float) (num den : Nat) (grid : Int) : Option Decimal :=
  let n := num * Nat.pow 10 (-grid).toNat
  let d := den * Nat.pow 10 grid.toNat
  let below : Decimal := ⟨n / d, grid⟩
  let above : Decimal := ⟨n / d + 1, grid⟩
  if below.toFloat = x then
    if above.toFloat = x ∧ (2 * (n / d) + 1) * d ≤ 2 * n then some above else some below
  else if above.toFloat = x then some above
  else none

/-- The decimal that equals `mantissa * 2 ^ exponent`. -/
def exact (mantissa : Nat) (exponent : Int) : Decimal :=
  ⟨mantissa * Nat.pow 2 exponent.toNat * Nat.pow 5 (-exponent).toNat, min exponent 0⟩

/-- The shortest decimal that reads back as the positive double `x`, whose value is
    `mantissa * 2 ^ exponent`. -/
def shortest (x : Float) (mantissa : Nat) (exponent : Int) : Decimal :=
  let num := mantissa * Nat.pow 2 exponent.toNat
  let den := Nat.pow 2 (-exponent).toNat
  let top := magnitude num den
  ((List.range 17).findSome? fun (i : Nat) => onGrid x num den (top - (i + 1))).getD
    (exact mantissa exponent)

theorem toFloat_onGrid {x : Float} {num den : Nat} {grid : Int} {d : Decimal}
    (h : onGrid x num den grid = some d) : d.toFloat = x := by
  unfold onGrid at h
  grind

end Catena.Decimal
