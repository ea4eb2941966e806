import LineBasic.Function.Argument

/-!
# Functions of numbers

* `MathFunction.apply` : the functions of one decimal.
* `Numbers.abs`, `Numbers.sqr`, `Numbers.log`, `Numbers.int` : functions with rules of their own.
* `Numbers.sleep` : the check that a time can be waited for.
-/

namespace LineBasic

/-- The function of decimals with a name. -/
def MathFunction.onFloat : MathFunction → Float → Float
  | sin => Float.sin
  | cos => Float.cos
  | tan => Float.tan
  | exp => Float.exp
  | atn => Float.atan

/-- A function of one decimal, called with arguments. -/
def MathFunction.apply (f : MathFunction) : List Value → Except Error Value
  | [v] => do
    let x ← Argument.number f.name v
    return .float (f.onFloat x)
  | args => .error (Argument.countFault f.name 1 args)

namespace Numbers

/-- The absolute value. -/
def abs : List Value → Except Error Value
  | [.int n] => Value.checked (Integer.abs? n)
  | [.float x] => .ok (.float x.abs)
  | [v] => .error (Argument.kindFault "ABS" "a number" v)
  | args => .error (Argument.countFault "ABS" 1 args)

/-- The square root of a number that is not negative. -/
def sqr : List Value → Except Error Value
  | [v] => do
    let x ← Argument.number "SQR" v
    if x < 0.0 then .error (.run (.outsideDomain "SQR")) else return .float x.sqrt
  | args => .error (Argument.countFault "SQR" 1 args)

/-- The natural logarithm of a positive number. -/
def naturalLog (x : Float) : Except Error Value :=
  if x ≤ 0.0 then .error (.run (.outsideDomain "LOG")) else .ok (.float x.log)

/-- The logarithm of a positive number in a positive base other than one. -/
def logInBase (x base : Float) : Except Error Value :=
  if x ≤ 0.0 then .error (.run (.outsideDomain "LOG"))
  else if 0.0 < base && base != 1.0 then .ok (.float (x.log / base.log))
  else .error (.run (.outsideDomain "LOG"))

/-- The logarithm, natural or in a base. -/
def log : List Value → Except Error Value
  | [v] => do naturalLog (← Argument.number "LOG" v)
  | [v, base] => do
    let x ← Argument.number "LOG" v
    logInBase x (← Argument.number "LOG" base)
  | args => .error (Argument.countFault "LOG" 2 args)

/-- The integer next to a finite number downwards; it stays inside the range of integers. -/
def int : List Value → Except Error Value
  | [.int n] => .ok (.int n)
  | [v] =>
    match v with
    | .float x =>
      match Shape.ofFloat x with
      | .finite d => .ok (.int (Integer.saturate d.floorInt))
      | _ => .error (Argument.kindFault "INT" "a finite number" v)
    | _ => .error (Argument.kindFault "INT" "a finite number" v)
  | args => .error (Argument.countFault "INT" 1 args)

/-- Durations are written plainly. -/
def durationLayout : Layout := ⟨fun _ => false, fun _ => false⟩

/-- Waiting for seconds, which have to be a time: not negative, and below `2 ^ 64`.
Waiting leaves no trace. -/
def sleep : List Value → Except Error Value
  | [v] => do
    let x ← Argument.number "SLEEP" v
    if 0.0 ≤ x && x < 18446744073709551616.0 then return .nothing
    else .error (.run (.badDuration (durationLayout.write (.ofFloat x))))
  | args => .error (Argument.countFault "SLEEP" 1 args)

end Numbers
end LineBasic
