import LineBasic.Text.Letter

/-!
# Checked 64-bit integers

The integers of the language are exact or fail: an operation gives the mathematical result if it
fits in 64 bits, and nothing otherwise.

* `ofInt?` : the 64-bit integer of a mathematical one, if it fits.
* `add?`, `sub?`, `mul?`, `neg?`, `abs?` : arithmetic through `Int`.
* `floorDiv?`, `floorMod?` : division that rounds down, made from division that rounds towards zero.
* `pow?` : powers, by repeated squaring.
* `saturate` : the nearest 64-bit integer; `addSaturated`, `subSaturated` : sums and
  differences rounded to it.
* `read?`, `write` : decimal text.
-/

namespace LineBasic
namespace Integer

/-- The 64-bit integer equal to `n`, if there is one. -/
def ofInt? (n : Int) : Option Int64 :=
  if Int64.minValue.toInt ≤ n ∧ n ≤ Int64.maxValue.toInt then some (Int64.ofInt n) else none

/-- The 64-bit integer nearest to `n`. -/
def saturate (n : Int) : Int64 :=
  if n < Int64.minValue.toInt then Int64.minValue
  else if Int64.maxValue.toInt < n then Int64.maxValue
  else Int64.ofInt n

/-- The 64-bit integer nearest to a sum. -/
def addSaturated (a b : Int64) : Int64 := saturate (a.toInt + b.toInt)

/-- The 64-bit integer nearest to a difference. -/
def subSaturated (a b : Int64) : Int64 := saturate (a.toInt - b.toInt)

/-- Exact sum. -/
def add? (a b : Int64) : Option Int64 := ofInt? (a.toInt + b.toInt)

/-- Exact difference. -/
def sub? (a b : Int64) : Option Int64 := ofInt? (a.toInt - b.toInt)

/-- Exact product. -/
def mul? (a b : Int64) : Option Int64 := ofInt? (a.toInt * b.toInt)

/-- Exact negative. -/
def neg? (a : Int64) : Option Int64 := ofInt? (-a.toInt)

/-- Exact absolute value. -/
def abs? (a : Int64) : Option Int64 := ofInt? a.toInt.natAbs

/-- The quotient rounded towards zero. There is none by zero, nor for the least integer by `-1`. -/
def truncDiv? (a b : Int64) : Option Int64 :=
  if b = 0 then none else ofInt? (a.toInt.tdiv b.toInt)

/-- The remainder that goes with `truncDiv?`; it is given only where that quotient is. -/
def truncMod? (a b : Int64) : Option Int64 := (truncDiv? a b).map fun _ => a % b

/-- One of two integers is negative and the other one is not. -/
def opposed (a b : Int64) : Bool := decide (a < 0) != decide (b < 0)

/-- The quotient rounded down: where something remains and the signs differ, it is one less than the
quotient rounded towards zero. -/
def floorDiv? (a b : Int64) : Option Int64 :=
  (truncDiv? a b).bind fun q => if a % b ≠ 0 ∧ opposed a b then sub? q 1 else some q

/-- The remainder with the sign of the divisor, which is added where the remainder of
`truncMod?` has the other sign. -/
def floorMod? (a b : Int64) : Option Int64 :=
  (truncMod? a b).map fun r => if r ≠ 0 ∧ opposed r b then r + b else r

/-- The product of `acc` and a power, by repeated squaring: the bits of the exponent are taken from
the lowest one on, and the base is squared only while a higher one is still to come. -/
def mulPow? (acc a : Int64) (n : Nat) : Option Int64 :=
  (if n % 2 = 1 then mul? acc a else some acc).bind fun acc =>
    if h : n ≤ 1 then some acc else (mul? a a).bind fun a => mulPow? acc a (n / 2)
termination_by n
decreasing_by omega

/-- Exact power. The exponent has to fit in 32 bits, even for the bases 0, 1 and -1. -/
def pow? (a : Int64) (n : Nat) : Option Int64 :=
  if UInt32.size ≤ n then none else mulPow? 1 a n

/-- The value of a digit. -/
def digitValue (c : Char) : Nat := c.toNat - '0'.toNat

/-- The number that a list of digits spells. -/
def ofDigits (cs : List Char) : Nat := cs.foldl (fun n c => 10 * n + digitValue c) 0

/-- The number spelled by digits only, at least one. -/
def readNat? (cs : List Char) : Option Nat :=
  if cs.isEmpty then none
  else if cs.all Text.isDigit then some (ofDigits cs)
  else none

/-- The integer spelled by an optional sign and digits, if it fits. -/
def read? (cs : List Char) : Option Int64 :=
  match cs with
  | '-' :: r => (readNat? r).bind fun n => ofInt? (-(n : Int))
  | '+' :: r => (readNat? r).bind fun n => ofInt? n
  | _ => (readNat? cs).bind fun n => ofInt? n

/-- The decimal text of a natural number. -/
def writeNat (n : Nat) : String := String.ofList (Nat.toDigits 10 n)

/-- The decimal text of an integer. -/
def writeInt (n : Int) : String :=
  if n < 0 then "-" ++ writeNat n.natAbs else writeNat n.natAbs

/-- The decimal text of a 64-bit integer. -/
def write (a : Int64) : String := writeInt a.toInt

theorem ofInt?_eq_some {n : Int} {a : Int64} (h : ofInt? n = some a) : a.toInt = n := by
  unfold ofInt? at h
  split at h
  · next hn =>
    rw [← Option.some.inj h]
    exact Int64.toInt_ofInt_of_le hn.1 (Int.lt_add_one_of_le hn.2)
  · simp at h

theorem ofInt?_toInt (a : Int64) : ofInt? a.toInt = some a := by
  have h : Int64.minValue.toInt ≤ a.toInt ∧ a.toInt ≤ Int64.maxValue.toInt :=
    ⟨a.minValue_le_toInt, a.toInt_le⟩
  rw [ofInt?, if_pos h, Int64.ofInt_toInt]

end Integer
end LineBasic
