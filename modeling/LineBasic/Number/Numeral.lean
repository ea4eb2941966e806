import LineBasic.Number.Binary64

/-!
# Decimal numerals of floating-point numbers

A positive finite number is written with the fewest decimal digits that read back as the same
number, and of those with the ones nearest to it.

* `Numeral` : `coefficient · 10 ^ exponent`.
* `Interval` : the numbers that read back as a given one, in exact integers.
* `fewest` : the numeral with the fewest digits in the interval, nearest first, an exact tie up.
-/

namespace LineBasic

/-- The number `coefficient · 10 ^ exponent`. -/
structure Numeral where
  coefficient : Nat
  exponent : Int
  deriving DecidableEq, Repr

namespace Numeral

/-- The digits of the coefficient. -/
def digits (n : Numeral) : List Char := Nat.toDigits 10 n.coefficient

/-- Drops zeros at the end of the coefficient, at most `fuel` of them. -/
def dropZeros : Nat → Numeral → Numeral
  | 0, n => n
  | fuel + 1, n =>
    if n.coefficient % 10 = 0 && n.coefficient ≠ 0 then
      dropZeros fuel ⟨n.coefficient / 10, n.exponent + 1⟩
    else n

end Numeral

/-- The reals that round to one number, all scaled by `scale`: from `low` to `high` around `value`,
with both ends or with none. -/
structure Interval where
  low : Nat
  value : Nat
  high : Nat
  closed : Bool
  scale : Nat
  deriving DecidableEq, Repr

namespace Interval

/-- The interval of a positive dyadic number. Its lower half is half as long below a power of two,
where the numbers get denser. Ends belong to it if the mantissa is even. -/
def ofDyadic (d : Dyadic) : Interval :=
  let gap := if d.mantissa = 1 <<< 52 && Shape.leastExponent < d.exponent then 1 else 2
  let e := d.exponent - 2
  let unit := 1 <<< e.toNat
  ⟨(4 * d.mantissa - gap) * unit, 4 * d.mantissa * unit, (4 * d.mantissa + 2) * unit,
    d.mantissa % 2 = 0, 1 <<< (-e).toNat⟩

/-- A scaled number lies in the interval. -/
def holds (i : Interval) (x : Nat) : Bool :=
  if i.closed then i.low ≤ x && x ≤ i.high else i.low < x && x < i.high

/-- The interval with the same reals and a scale `factor` times as large. -/
def rescale (i : Interval) (factor : Nat) : Interval :=
  ⟨i.low * factor, i.value * factor, i.high * factor, i.closed, i.scale * factor⟩

/-- The multiple of `10 ^ exponent` in the interval that is nearest to the value. -/
def nearest? (i : Interval) (exponent : Int) : Option Numeral :=
  let j := i.rescale (Nat.pow 10 (-exponent).toNat)
  let unit := i.scale * Nat.pow 10 exponent.toNat
  let below := j.value / unit
  let above := if j.value % unit = 0 then below else below + 1
  match j.holds (below * unit), j.holds (above * unit) with
  | true, true =>
    if j.value - below * unit < above * unit - j.value then some ⟨below, exponent⟩
    else some ⟨above, exponent⟩
  | true, false => some ⟨below, exponent⟩
  | false, true => some ⟨above, exponent⟩
  | false, false => none

/-- The first hit on finer and finer decimal grids. -/
def search (i : Interval) : Nat → Int → Option Numeral
  | 0, _ => none
  | fuel + 1, exponent =>
    match i.nearest? exponent with
    | some n => some n
    | none => search i fuel (exponent - 1)

/-- How far the point has to move for a number below one to reach it, at most `fuel` places. -/
def leadingZeros : Nat → Nat → Nat → Nat
  | 0, _, _ => 0
  | fuel + 1, value, scale => if scale ≤ value then 0 else leadingZeros fuel (value * 10) scale + 1

/-- The exponent of the leading digit. -/
def leadingExponent (i : Interval) : Int :=
  if i.scale ≤ i.value then ((Nat.toDigits 10 (i.value / i.scale)).length : Int) - 1
  else -(leadingZeros 330 i.value i.scale : Int)

end Interval

namespace Numeral

/-- The numeral with the fewest digits that reads back as the positive dyadic number. -/
def fewest (d : Dyadic) : Numeral :=
  let i := Interval.ofDyadic d
  ((i.search 20 i.leadingExponent).getD ⟨d.mantissa, d.exponent⟩).dropZeros 20

end Numeral
end LineBasic
