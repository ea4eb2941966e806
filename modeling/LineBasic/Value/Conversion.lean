import LineBasic.Error
import LineBasic.Number.Reading
import LineBasic.Text.Blank
import LineBasic.Value.Display

/-!
# Conversions between types

* `BaseType.default` : the value that a declared variable starts with.
* `Value.convert?` : a value as a value of a type, if there is one.
* `TypeName.apply` : a type called as a function.
-/

namespace LineBasic

/-- The value that a type starts with. -/
def BaseType.default : BaseType → Value
  | integer => .int 0
  | decimal => .float 0.0
  | text => .text ""
  | truth => .bool false

namespace Value

/-- The integer next to a decimal towards zero; it has to be smaller in size than `2 ^ 63`. -/
def truncated? (x : Float) : Option Int64 :=
  match Shape.ofFloat x with
  | .finite d => if d.wholePart < 1 <<< 63 then Integer.ofInt? d.truncate else none
  | _ => none

/-- A value as an integer. -/
def toInteger? : Value → Option Int64
  | .int n => some n
  | .float x => truncated? x
  | .bool b => some (if b then 1 else 0)
  | .text s => Integer.read? (Text.trim s).toList
  | _ => none

/-- A value as a decimal. -/
def toDecimal? : Value → Option Float
  | .int n => some n.toFloat
  | .float x => some x
  | .bool b => some (if b then 1.0 else 0.0)
  | .text s => Binary64.read? (Text.trim s).toList
  | _ => none

/-- A value as a value of a type. -/
def convert? (h : Heap) (type : BaseType) (v : Value) : Option Value :=
  match type with
  | .integer => v.toInteger?.map .int
  | .decimal => v.toDecimal?.map .float
  | .text => some (.text (v.display h))
  | .truth => some (.bool (v.isTrue h))

end Value

/-- A type called with arguments: without any it gives its default, with one it converts. -/
def TypeName.apply (h : Heap) (type : TypeName) : List Value → Except Error Value
  | [] => .ok type.base.default
  | [v] =>
    match v.convert? h type.base with
    | some w => .ok w
    | none => .error (.run (.notConvertible v.kind (v.display h) type.name))
  | args => .error (.argumentCount type.name 1 args.length)

end LineBasic
