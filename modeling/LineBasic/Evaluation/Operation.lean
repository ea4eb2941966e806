import LineBasic.Evaluation.Application

/-!
# Operators

The operators decide themselves which of their operands are evaluated, and when.

* `Operation.assign`, `Operation.assignElement`, `Operation.declare` : operators that bind.
* `Operation.convert` : a value as a value of a type.
* `Operation.run` : any operator on operands that are not yet evaluated.
-/

namespace LineBasic
namespace Operation

/-- The name that an operand has to be. -/
def nameOf (role : NameRole) (n : Node) : Run String :=
  match n.name? with
  | some s => return s
  | none => Run.fault (.notAName role)

/-- Binds a name to the value of an expression. -/
def assign (self : Evaluator) (stack : CallStack) (target e : Node) : Run Value := do
  let name ← nameOf .assignmentTarget target
  let v ← self.value stack e
  Run.updateScopes fun s => s.assign stack.chain name v
  return .nothing

/-- Puts the value of an expression in a place of an array. -/
def assignElement (self : Evaluator) (stack : CallStack) (target index e : Node) : Run Value := do
  let name ← nameOf .assignmentTarget target
  let i ← self.value stack index
  let v ← self.value (stack.hold [i]) e
  match ← Run.lookup stack.chain name with
  | .array id =>
    let place ← Run.ofExcept (i.slot (← Run.read fun m => (m.heap.sequence id).size))
    Run.update fun m => m.edit id fun items => items.setIfInBounds place v
    return .nothing
  | other => Run.fault (.notAnArray name other.kind)

/-- The size of an array, which has to be small enough to be made. -/
def size (h : Heap) : Value → Except Error Nat
  | .int n =>
    if n < 0 then .error (.run (.badSize ((Value.int n).display h)))
    else if allocationLimit < n.toInt.toNat then .error (.run (.sizeTooLarge n.toInt.toNat))
    else .ok n.toInt.toNat
  | v => .error (.run (.badSize (v.display h)))

/-- Runs the same again and again, and collects the values. -/
def collect (stack : CallStack) (make : CallStack → Run Value) :
    Nat → Array Value → Run (Array Value)
  | 0, items => return items
  | n + 1, items => do
    let v ← make (stack.hold items.toList)
    collect stack make n (items.push v)

/-- What a declared name is bound to: one new value of the type, or an array of new values. -/
def initial (self : Evaluator) (stack : CallStack) (make : CallStack → Run Value) :
    Option Node → Run Value
  | none => make stack
  | some n => do
    let v ← self.value stack n
    let count ← Run.ofExcept (size (← Run.read fun m => m.heap) v)
    let items ← collect stack make count #[]
    return .array (← Run.take fun m => m.allocate items)

/-- Binds a name in the innermost scope to new values of a type. Types are looked up
among the global names. -/
def declare (self : Evaluator) (stack : CallStack) (target type : Node) (count : Option Node) :
    Run Value := do
  let name ← nameOf .declared target
  let typeName ← nameOf .declaredType type
  let t ← Run.lookup [Scopes.global] typeName
  match t.application? self with
  | some make =>
    let v ← initial self (stack.hold [t]) (fun s => make s []) count
    Run.updateScopes fun s => s.define (Scopes.innermost stack.chain) name v
    return .nothing
  | none => Run.fault (.notAType typeName t.kind)

/-- The type that an operand stands for; a bare name is looked up among the global names. -/
def typeOf (self : Evaluator) (stack : CallStack) (n : Node) : Run Value :=
  match n.name? with
  | some name => Run.lookup [Scopes.global] name
  | none => self.value stack n

/-- Applies a type to the value of an expression. -/
def convert (self : Evaluator) (stack : CallStack) (e type : Node) : Run Value := do
  let v ← self.value stack e
  let t ← typeOf self (stack.hold [v]) type
  match t.application? self with
  | some f => f stack [v]
  | none => Run.fault (.noType t.kind)

/-- Evaluates one of two expressions. -/
def choose (self : Evaluator) (stack : CallStack) (guard yes no : Node) : Run Value := do
  if ← self.truth stack guard then self.value stack yes else self.value stack no

/-- Both are true; the second is not evaluated if the first is false. -/
def both (self : Evaluator) (stack : CallStack) (a b : Node) : Run Value := do
  if ← self.truth stack a then return .bool (← self.truth stack b) else return .bool false

/-- One of them is true; the second is not evaluated if the first is true. -/
def either (self : Evaluator) (stack : CallStack) (a b : Node) : Run Value := do
  if ← self.truth stack a then return .bool true else return .bool (← self.truth stack b)

/-- An operator on the values of both operands. -/
def binary (self : Evaluator) (stack : CallStack) (op : Operator) (a b : Node) : Run Value := do
  let v ← self.value stack a
  let w ← self.value (stack.hold [v]) b
  Run.onHeap fun h => Value.binary h op v w

/-- An operator got too many or too few operands. -/
def countFault (op : Operator) (args : List Node) : Error :=
  .argumentCount op.name op.arity args.length

/-- An operator on as many operands as it takes. -/
def onOperands (self : Evaluator) (stack : CallStack) : Operator → List Node → Run Value
  | .assign, [target, e] => assign self stack target e
  | .assignElement, [target, index, e] => assignElement self stack target index e
  | .declare, [target, type] => declare self stack target type none
  | .declare, [target, type, count] => declare self stack target type (some count)
  | .choose, [guard, yes, no] => choose self stack guard yes no
  | .and, [a, b] => both self stack a b
  | .or, [a, b] => either self stack a b
  | .not, [a] => do return .bool (!(← self.truth stack a))
  | .negate, [a] => do Run.ofExcept (← self.value stack a).negated
  | .convert, [e, type] => convert self stack e type
  | op, [a, b] => binary self stack op a b
  | op, args => Run.fail (countFault op args)

/-- An operator on operands. -/
def run (self : Evaluator) (stack : CallStack) (op : Operator) (args : List Node) : Run Value :=
  if op.accepts args.length then onOperands self stack op args
  else Run.fail (countFault op args)

end Operation
end LineBasic
