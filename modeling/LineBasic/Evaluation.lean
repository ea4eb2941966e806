import LineBasic.Evaluation.Control

/-!
# Evaluation

The rule for each kind of node, and evaluation by repeated use of the rules.

* `Control.evaluate`, `Node.evaluate` : one rule, given the evaluator of the parts.
* `eval` : the evaluator. Its first argument bounds the depth of the tree of rules and the number of
  turns of each loop; an evaluation that ends does so for all bounds that are large enough.
-/

namespace LineBasic

/-- The rule for a construct. -/
def Control.evaluate (self : Evaluator) (turns : Nat) (stack : CallStack) (n : Node) :
    Control → Run Flow
  | .program => Statements.all self stack n.children
  | .block => Statements.block self stack n.children
  | .chain => Branch.chain self stack n.children
  | .branch _ => Branch.alone self stack n
  | .whileLoop => Loop.whileLoop self turns stack n
  | .doLoop => Loop.doLoop self turns stack n
  | .forLoop counter => Loop.forLoop self turns stack counter n
  | .subroutine name params => defineClosure stack n "SUB" name params
  | .function name params => defineClosure stack n "FUNCTION" name params
  | .exitLoop => return .signal .exitLoop
  | .continueLoop => return .signal .continueLoop
  | .returned => leaveCall self stack n.children
  | .inclusion what => includeUnit stack what

/-- A new array. -/
def makeArray (self : Evaluator) (stack : CallStack) (elements : List Node) : Run Value := do
  let vs ← self.values stack elements
  return .array (← Run.take fun m => m.allocate vs.toArray)

/-- The rule for a node. -/
def Node.evaluate (self : Evaluator) (turns : Nat) (stack : CallStack) (n : Node) : Run Flow :=
  match n.kind with
  | .literal l => return .value (.ofLiteral l)
  | .name s => do return .value (← Run.lookup stack.chain s)
  | .array => do return .value (← makeArray self stack n.children)
  | .call target => do return .value (← callName self stack target n.children)
  | .control c => c.evaluate self turns stack n

/-- Evaluation of nodes. -/
def eval : Nat → Evaluator
  | 0 => fun _ _ => Run.exhausted
  | fuel + 1 => fun stack n => n.evaluate (eval fuel) fuel stack

theorem eval_succ (fuel : Nat) (stack : CallStack) (n : Node) :
    eval (fuel + 1) stack n = n.evaluate (eval fuel) fuel stack := rfl

end LineBasic
