import LineBasic.Error
import LineBasic.Value.Display
import LineBasic.Value.Equality

/-!
# Operators on values

Two integers give an integer, exactly or not at all; other numbers are taken as decimals. A plus
sign with a string on either side joins texts. Comparisons order strings by their characters, truth
values with false first, and numbers.

* `Value.binary` : the operators of two evaluated operands.
* `Value.negated` : the minus sign.
* `Value.slot` : the place in a sequence that an index stands for.
-/

namespace LineBasic
namespace Value

/-- The fault of an operator that does not take these operands. -/
def unsupported (op : Operator) (a b : Value) : Error := .run (.unsupported op a.kind b.kind)

/-- The value of an exact integer operation. -/
def checked : Option Int64 → Except Error Value
  | some n => .ok (.int n)
  | none => .error (.run .integerOverflow)

/-- An operator on two integers or on two decimals. -/
def numeric (op : Operator) (onInt : Int64 → Int64 → Option Int64)
    (onFloat : Float → Float → Float) (a b : Value) : Except Error Value :=
  match a, b with
  | .int m, .int n => checked (onInt m n)
  | a, b =>
    match a.number?, b.number? with
    | some x, some y => .ok (.float (onFloat x y))
    | _, _ => .error (unsupported op a b)

/-- A number that is zero. -/
def isZero : Value → Bool
  | .int n => n == 0
  | .float x => x == 0.0
  | _ => false

/-- The quotient of two numbers as a decimal. -/
def quotient (a b : Value) : Except Error Value :=
  match a.number?, b.number? with
  | some x, some y =>
    if y == 0.0 then .error (.run .divisionByZero) else .ok (.float (x / y))
  | _, _ => .error (unsupported .divide a b)

/-- A power: of integers exactly if the exponent is not negative, else of decimals. -/
def raised (a b : Value) : Except Error Value :=
  match a, b with
  | .int m, .int n =>
    if 0 ≤ n then checked (Integer.pow? m n.toInt.toNat)
    else .ok (.float (Float.pow m.toFloat n.toFloat))
  | a, b =>
    match a.number?, b.number? with
    | some x, some y => .ok (.float (Float.pow x y))
    | _, _ => .error (unsupported .power a b)

/-- Joined texts, or a sum. -/
def sum (h : Heap) (a b : Value) : Except Error Value :=
  match a, b with
  | .text s, b => .ok (.text (s ++ b.display h))
  | a, .text t => .ok (.text (a.display h ++ t))
  | a, b => numeric .plus Integer.add? (· + ·) a b

/-- The order of two decimals; not-a-number has none. -/
def orderFloat (x y : Float) : Option Ordering :=
  if x < y then some .lt else if y < x then some .gt else if x == y then some .eq else none

/-- The order of two things by their less-than test. -/
def orderBy {α : Type} (less : α → α → Bool) (a b : α) : Ordering :=
  if less a b then .lt else if less b a then .gt else .eq

/-- The order of two values that can be compared. -/
def order? (a b : Value) : Option Ordering :=
  match a, b with
  | .text s, .text t => some (orderBy (fun s t => decide (s < t)) s t)
  | .bool a, .bool b => some (orderBy (fun a b => !a && b) a b)
  | .int m, .int n => some (orderBy (fun m n => decide (m < n)) m n)
  | a, b =>
    match a.number?, b.number? with
    | some x, some y => orderFloat x y
    | _, _ => none

/-- A comparison by the order of two values. -/
def compared (op : Operator) (test : Ordering → Bool) (a b : Value) : Except Error Value :=
  match order? a b with
  | some o => .ok (.bool (test o))
  | none => .error (unsupported op a b)

/-- An operator that divides: the divisor may not be zero. -/
def divided (op : Operator) (onInt : Int64 → Int64 → Option Int64)
    (onFloat : Float → Float → Float) (a b : Value) : Except Error Value :=
  if b.isZero then .error (.run .divisionByZero) else numeric op onInt onFloat a b

/-- An operator on two evaluated operands. -/
def binary (h : Heap) (op : Operator) (a b : Value) : Except Error Value :=
  match op with
  | .plus => sum h a b
  | .minus => numeric .minus Integer.sub? (· - ·) a b
  | .times => numeric .times Integer.mul? (· * ·) a b
  | .divide => quotient a b
  | .floorDivide => divided .floorDivide Integer.floorDiv? (fun x y => (x / y).floor) a b
  | .modulo => divided .modulo Integer.floorMod? Binary64.floorMod a b
  | .power => raised a b
  | .equal => .ok (.bool (equals h a b))
  | .notEqual => .ok (.bool (!equals h a b))
  | .greater => compared .greater (· == .gt) a b
  | .less => compared .less (· == .lt) a b
  | .greaterEqual => compared .greaterEqual (· != .lt) a b
  | .lessEqual => compared .lessEqual (· != .gt) a b
  | op => .error (.run (.notBinary op))

/-- The negative of a number. -/
def negated : Value → Except Error Value
  | .int n => checked (Integer.neg? n)
  | .float x => .ok (.float (-x))
  | v => .error (.run (.badNegation v.kind))

/-- The integer of a value that is one, as an integer or as a decimal without a fraction. -/
def whole? : Value → Option Int64
  | .int n => some n
  | .float x => if Binary64.isWhole x then some (Binary64.toInteger x) else none
  | _ => none

/-- The place that an index, which counts from one, stands for in a sequence. -/
def slot (index : Value) (length : Nat) : Except Error Nat :=
  match index.whole? with
  | none => .error (.run (.badIndex index.kind))
  | some i =>
    if 1 ≤ i.toInt ∧ i.toInt ≤ length then .ok (i.toInt.toNat - 1)
    else .error (.indexOutOfRange i length)

end Value
end LineBasic
