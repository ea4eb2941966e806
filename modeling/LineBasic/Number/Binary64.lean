import LineBasic.Number.Integer

/-!
# Floating-point numbers taken apart

A finite binary64 number is a sign, a natural number and a power of two. The functions here work on
that exact form.

* `Dyadic` : `± mantissa · 2 ^ exponent`.
* `Shape` : a bit pattern as not-a-number, an infinity, or a finite number.
* `truncate`, `floorInt` : the integer next to a number, towards zero or down.
* `remainder` : the exact remainder of truncated division, with the sign of the dividend.
-/

namespace LineBasic

/-- The number `± mantissa · 2 ^ exponent`. -/
structure Dyadic where
  negative : Bool
  mantissa : Nat
  exponent : Int
  deriving DecidableEq, Repr

/-- What a bit pattern stands for. -/
inductive Shape where
  | nan
  | infinite (negative : Bool)
  | finite (d : Dyadic)
  deriving DecidableEq, Repr

namespace Shape

/-- The exponent of the smallest positive number. -/
def leastExponent : Int := -1074

/-- Reads a bit pattern. -/
def ofBits (bits : UInt64) : Shape :=
  let n := bits.toNat
  let negative := decide (1 <<< 63 ≤ n)
  let power := (n >>> 52) % (1 <<< 11)
  let fraction := n % (1 <<< 52)
  if power = 2047 then
    if fraction = 0 then .infinite negative else .nan
  else if power = 0 then .finite ⟨negative, fraction, leastExponent⟩
  else .finite ⟨negative, fraction + 1 <<< 52, leastExponent + (power - 1 : Nat)⟩

/-- The shape of a number. -/
def ofFloat (x : Float) : Shape := ofBits x.toBits

end Shape

namespace Dyadic

/-- The size of the number rounded towards zero. -/
def wholePart (d : Dyadic) : Nat :=
  if 0 ≤ d.exponent then d.mantissa <<< d.exponent.toNat
  else d.mantissa >>> (-d.exponent).toNat

/-- The number is an integer. -/
def isWhole (d : Dyadic) : Bool :=
  0 ≤ d.exponent || d.mantissa % (1 <<< (-d.exponent).toNat) = 0

/-- The integer next to the number towards zero. -/
def truncate (d : Dyadic) : Int :=
  if d.negative then -(d.wholePart : Int) else d.wholePart

/-- The integer next to the number downwards. -/
def floorInt (d : Dyadic) : Int :=
  if d.negative && !d.isWhole then d.truncate - 1 else d.truncate

/-- The floating-point number, for a dyadic that has one. -/
def toFloat (d : Dyadic) : Float :=
  let extra := d.mantissa.log2 - 52
  let size := Float.scaleB (Float.ofNat (d.mantissa >>> extra)) (d.exponent + extra)
  if d.negative then -size else size

/-- The exact remainder of truncated division by a number that is not zero. -/
def remainder (a b : Dyadic) : Dyadic :=
  let e := min a.exponent b.exponent
  let m := a.mantissa <<< (a.exponent - e).toNat
  let n := b.mantissa <<< (b.exponent - e).toNat
  ⟨a.negative, m % n, e⟩

end Dyadic

namespace Binary64

/-- Not a number. -/
def nan : Float := 0.0 / 0.0

/-- A number without a fraction; the infinities are none. -/
def isWhole (x : Float) : Bool :=
  match Shape.ofFloat x with
  | .finite d => d.isWhole
  | _ => false

/-- The nearest 64-bit integer towards zero; not-a-number counts as zero. -/
def toInteger (x : Float) : Int64 :=
  match Shape.ofFloat x with
  | .nan => 0
  | .infinite negative => if negative then Int64.minValue else Int64.maxValue
  | .finite d => Integer.saturate d.truncate

/-- The exact remainder of truncated division. -/
def remainder (a b : Float) : Float :=
  match Shape.ofFloat a, Shape.ofFloat b with
  | .finite _, .infinite _ => a
  | .finite x, .finite y => if y.mantissa = 0 then nan else (x.remainder y).toFloat
  | _, _ => nan

/-- The remainder with the sign of the divisor. -/
def floorMod (a b : Float) : Float :=
  let r := remainder a b
  if r != 0.0 && (r < 0.0) != (b < 0.0) then r + b else r

end Binary64
end LineBasic
