import LineBasic.Evaluation.Flow

/-!
# Applying functions

A function of the program runs in a new scope inside the chain it was defined in, whoever calls it.

* `Closure.enter` : a call of a function of the program.
* `Builtin.apply` : a call of a built-in that works on values.
* `Value.application?` : how a value is applied to arguments, if it can be.
-/

namespace LineBasic

/-- The names of a call: the parameters, bound to the arguments in order. -/
def Bindings.ofArguments (params : List String) (args : List Value) : Bindings :=
  (params.zip args).foldl (fun b p => b.insert (Text.upperCase p.1) p.2) .empty

/-- What the end of a body means for the call. -/
def Flow.returnValue : Flow → Value
  | signal (.returned v) => v
  | _ => .nothing

namespace Closure

/-- A call needs an argument for each parameter. -/
def checkCount (c : Closure) (count : Nat) : Run Unit :=
  if count = c.params.length then return ()
  else Run.fail (.argumentCount c.name c.params.length count)

/-- Runs the body of a function with arguments. -/
def enter (self : Evaluator) (stack : CallStack) (c : Closure) (args : List Value) :
    Run Value := do
  c.checkCount args.length
  if stack.isFull then Run.fail (.recursionLimit stack.limit)
  else
    let id ← Run.take fun m => m.newScope (.ofArguments c.params args)
    return (← self (stack.push (id :: c.scope)) c.body).returnValue

end Closure

namespace Builtin

/-- A built-in on evaluated arguments, if it can work on them. -/
def onValues (b : Builtin) (args : List Value) : Run Value :=
  (b.onValues? args).getD (Run.fault (.notApplicable b.name))

/-- Applies a built-in to evaluated arguments. What was dropped is written out
before it looks at files. -/
def apply (stack : CallStack) (b : Builtin) (args : List Value) : Run Value :=
  if b.usesFiles then do
    Run.settle (stack.hold args)
    b.onValues args
  else b.onValues args

theorem apply_eq {b : Builtin} (h : b.usesFiles = false) (stack : CallStack) (args : List Value) :
    b.apply stack args = b.onValues args := by
  simp only [apply, h, Bool.false_eq_true, if_false]

end Builtin

/-- How a function is applied to evaluated arguments. -/
def Value.application? (self : Evaluator) : Value → Option (CallStack → List Value → Run Value)
  | .closure c => some fun stack => c.enter self stack
  | .builtin b _ => some fun stack => b.apply stack
  | _ => none

end LineBasic
