import LineBasic.Builtin
import LineBasic.Tree
import LineBasic.Value.Kind

/-!
# Values

* `ScopeId`, `Chain` : scopes, and the way from a scope outwards.
* `Closure` : a function of the program with the chain it was defined in.
* `Value` : what expressions yield. Arrays, queues, stacks and files are references: values with one
  identity share what is stored under it.
* `Value.kind`, `Value.number?` : what a value is, and its number.
-/

namespace LineBasic

/-- The identity of a scope; the global scope is number zero. -/
abbrev ScopeId := Nat

/-- The scopes that names are looked up in, from the innermost to the global one. -/
abbrev Chain := List ScopeId

/-- The identity of a sequence: an array, a queue or a stack. -/
abbrev SequenceId := Nat

/-- The identity of an open file. -/
abbrev FileId := Nat

/-- A `SUB` or `FUNCTION` that was defined. Each definition has a serial number of its own. -/
structure Closure where
  serial : Nat
  name : String
  params : List String
  body : Node
  scope : Chain

/-- A value of the language. -/
inductive Value where
  /-- A built-in, with the serial number of the binding that made it. -/
  | builtin (b : Builtin) (serial : Nat)
  | closure (c : Closure)
  | queue (id : SequenceId)
  | stack (id : SequenceId)
  | file (id : FileId)
  | array (id : SequenceId)
  | text (s : String)
  | int (n : Int64)
  | float (x : Float)
  | bool (b : Bool)
  | nothing

namespace Value

instance : Inhabited Value := ⟨.nothing⟩

/-- What a value is. -/
def kind : Value → ValueKind
  | builtin _ _ => .function
  | closure _ => .function
  | queue _ => .queue
  | stack _ => .stack
  | file _ => .file
  | array _ => .array
  | text _ => .text
  | int _ => .integer
  | float _ => .decimal
  | bool _ => .truth
  | nothing => .nothing

/-- The number of a value that is one. -/
def number? : Value → Option Float
  | int n => some n.toFloat
  | float x => some x
  | _ => none

/-- The value of a constant. -/
def ofLiteral : Literal → Value
  | .int n => .int n
  | .float bits => .float (Float.ofBits bits)
  | .text s => .text s
  | .bool b => .bool b
  | .nothing => .nothing

end Value

/-- The sequences behind arrays, queues and stacks, by identity. -/
abbrev Heap := Array (Array Value)

namespace Heap

/-- The sequence with an identity. -/
def sequence (h : Heap) (id : SequenceId) : Array Value := h.getD id #[]

end Heap

/-- The truth of a value: empty and zero things are false. -/
def Value.isTrue (h : Heap) : Value → Bool
  | .nothing => false
  | .bool b => b
  | .int n => n ≠ 0
  | .float x => x != 0.0
  | .text s => s ≠ ""
  | .array id => !(h.sequence id).isEmpty
  | _ => true

end LineBasic
