import LineBasic.Value.Arithmetic

/-!
# Arguments of built-in functions

* `Argument.text`, `Argument.whole`, `Argument.number` : an argument of a kind, or the fault of a
  function that wanted one.
* `Argument.countFault` : the fault of a wrong number of arguments.
-/

namespace LineBasic
namespace Argument

/-- A function got too many or too few arguments. -/
def countFault (name : String) (expected : Nat) (args : List Value) : Error :=
  .argumentCount name expected args.length

/-- A function got an argument of the wrong kind. -/
def kindFault (name expected : String) (v : Value) : Error :=
  .run (.wrongArgument name expected v.kind)

/-- An argument that has to be a string. -/
def text (name : String) : Value → Except Error String
  | .text s => .ok s
  | v => .error (kindFault name "a string" v)

/-- An argument that has to be an integer, or a decimal without a fraction. -/
def whole (name : String) (v : Value) : Except Error Int64 :=
  match v.whole? with
  | some n => .ok n
  | none => .error (kindFault name "an integer" v)

/-- An argument that has to be a number. -/
def number (name : String) (v : Value) : Except Error Float :=
  match v.number? with
  | some x => .ok x
  | none => .error (kindFault name "a number" v)

end Argument
end LineBasic
