import LineBasic.Evaluation.Console

/-!
# Calls

* `Value.element` : the element of an array, each index going one level deeper.
* `callName` : a name with arguments. It is called if it is bound to a function, and indexed if
  it is bound to an array.
-/

namespace LineBasic

/-- The element of a value at the values of indices. -/
def Value.element (self : Evaluator) (stack : CallStack) : Value → List Node → Run Value
  | v, [] => return v
  | v, n :: ns => do
    let index ← self.value (stack.hold [v]) n
    match v with
    | .array id =>
      let items ← Run.read fun m => m.heap.sequence id
      let place ← Run.ofExcept (index.slot items.size)
      Value.element self stack (items.getD place .nothing) ns
    | other => Run.fault (.notIndexable other.kind)

/-- A built-in with arguments. -/
def Builtin.call (self : Evaluator) (stack : CallStack) (b : Builtin) (args : List Node) :
    Run Value :=
  match b.onNodes? self stack args with
  | some r => r
  | none => do
    let vs ← self.values stack args
    b.apply stack vs

/-- A built-in that does not look at its arguments as they are written works on their values. -/
theorem Builtin.call_of_values {self : Evaluator} {stack : CallStack} {b : Builtin}
    {args : List Node} {vs : List Value} {m m' : Machine}
    (hnodes : b.onNodes? self stack args = none)
    (hvalues : self.values stack args m = .value vs m') :
    b.call self stack args m = b.apply stack vs m' := by
  simp only [call, hnodes, Run.bind_apply, hvalues]

/-- A function of the program with arguments, which are evaluated where it is called. -/
def Closure.call (self : Evaluator) (stack : CallStack) (c : Closure) (args : List Node) :
    Run Value := do
  c.checkCount args.length
  let vs ← self.values (stack.hold [.closure c]) args
  c.enter self stack vs

/-- A name with arguments. -/
def callName (self : Evaluator) (stack : CallStack) (target : String) (args : List Node) :
    Run Value := do
  match ← Run.lookup stack.chain target with
  | .builtin b _ => b.call self stack args
  | .closure c => c.call self stack args
  | .array id => Value.element self stack (.array id) args
  | v =>
    if args.isEmpty then return v
    else Run.fault (.notCallable (Text.upperCase target) v.kind)

end LineBasic
