import LineBasic.Number.Binary64
import LineBasic.Text.Letter

/-!
# Reading decimal numbers

* `ofNumeral` : the floating-point number nearest to `coefficient · 10 ^ exponent`.
* `read?` : the number that a text spells: an optional sign, then digits with an optional point and
  an optional power of ten, or one of the words for infinity and not-a-number.
-/

namespace LineBasic
namespace Binary64

/-- Decimal exponents outside this range give zero or infinity. -/
def exponentRange : Int := 400

/-- The number nearest to `coefficient · 10 ^ exponent`. -/
def ofNumeral (coefficient : Nat) (exponent : Int) : Float :=
  if coefficient = 0 then 0.0
  else
    let place := (Nat.toDigits 10 coefficient).length + exponent
    if exponentRange < place then 1.0 / 0.0
    else if place < -exponentRange then 0.0
    else if 0 ≤ exponent then Float.ofScientific coefficient false exponent.toNat
    else Float.ofScientific coefficient true (-exponent).toNat

/-- The number spelled by digits before and after a point. -/
def ofDigits (whole fraction : List Char) (exponent : Int) : Float :=
  ofNumeral (Integer.ofDigits (whole ++ fraction)) (exponent - fraction.length)

/-- The power of ten that a text spells after its mark. -/
def readExponent? (cs : List Char) : Option Int :=
  match cs with
  | '-' :: r => (Integer.readNat? r).map fun n => -(n : Int)
  | '+' :: r => (Integer.readNat? r).map fun n => (n : Int)
  | _ => (Integer.readNat? cs).map fun n => (n : Int)

/-- The number spelled by digits, with a point and a power of ten if there are any. -/
def readDigits? (cs : List Char) : Option Float :=
  let whole := cs.takeWhile Text.isDigit
  let rest := cs.dropWhile Text.isDigit
  let (fraction, rest) :=
    match rest with
    | '.' :: r => (r.takeWhile Text.isDigit, r.dropWhile Text.isDigit)
    | _ => ([], rest)
  if whole.isEmpty && fraction.isEmpty then none
  else
    match rest with
    | [] => some (ofDigits whole fraction 0)
    | c :: r =>
      if c = 'e' || c = 'E' then (readExponent? r).map fun e => ofDigits whole fraction e
      else none

/-- The number spelled without a sign. -/
def readUnsigned? (cs : List Char) : Option Float :=
  let word := String.ofList (cs.map Char.toLower)
  if word = "inf" || word = "infinity" then some (1.0 / 0.0)
  else if word = "nan" then some nan
  else readDigits? cs

/-- The number that the characters spell. -/
def read? (cs : List Char) : Option Float :=
  match cs with
  | '-' :: r => (readUnsigned? r).map fun x => -x
  | '+' :: r => readUnsigned? r
  | _ => readUnsigned? cs

end Binary64
end LineBasic
