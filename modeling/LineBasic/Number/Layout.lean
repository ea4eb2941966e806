import LineBasic.Number.Numeral

/-!
# Laying out floating-point numbers

A layout decides how the digits of a number become text: which numbers are written with a power of
ten, and which whole numbers keep a zero after the point.

* `Layout` : the decisions, by the position of the point before which all digits stand.
* `Layout.write` : the text of a number in a layout.
-/

namespace LineBasic

/-- Decisions on how numbers are written. The argument is the place of the point: the number is
`0.d₁d₂… · 10 ^ place`. -/
structure Layout where
  /-- Written as `d.ddd` and a power of ten. -/
  powerForm : Int → Bool
  /-- Written with `.0` if there is no fraction. -/
  keepsPoint : Int → Bool

namespace Layout

/-- A list of zeros. -/
def zeros (n : Nat) : List Char := List.replicate n '0'

/-- Digits with the point at `place`. -/
def positional (keepsPoint : Bool) (ds : List Char) (place : Int) : List Char :=
  if place ≤ 0 then ['0', '.'] ++ zeros (-place).toNat ++ ds
  else if ds.length ≤ place.toNat then
    ds ++ zeros (place.toNat - ds.length) ++ if keepsPoint then ['.', '0'] else []
  else ds.take place.toNat ++ ['.'] ++ ds.drop place.toNat

/-- Digits as `d.ddd` and a power of ten. -/
def scientific (ds : List Char) (place : Int) : List Char :=
  ds.take 1 ++ (if ds.length ≤ 1 then [] else ['.'] ++ ds.drop 1) ++ ['e'] ++
    (Integer.writeInt (place - 1)).toList

/-- The text of a finite number. -/
def writeDyadic (l : Layout) (d : Dyadic) : List Char :=
  let n := if d.mantissa = 0 then ⟨0, 0⟩ else Numeral.fewest d
  let ds := n.digits
  let place := ds.length + n.exponent
  let body :=
    if l.powerForm place && d.mantissa ≠ 0 then scientific ds place
    else positional (l.keepsPoint place) ds place
  if d.negative then '-' :: body else body

/-- The text of a number. -/
def write (l : Layout) (s : Shape) : String :=
  match s with
  | .nan => "NaN"
  | .infinite negative => if negative then "-inf" else "inf"
  | .finite d => String.ofList (l.writeDyadic d)

end Layout
end LineBasic
