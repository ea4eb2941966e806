import LineBasic.Evaluation.Call

/-!
# Constructs

* `Statements.all`, `Statements.block` : statements one after another; a block ends at a signal.
* `Branch.chain` : the first branch whose guard is true.
* `Loop.whileTurns`, `Loop.doTurns`, `Loop.forTurns` : loops, with a bound on the number of turns.
* `defineClosure`, `includeUnit` : what binds functions, and scripts.
-/

namespace LineBasic

/-- A child that a construct has to have. -/
def Node.part (n : Node) (i : Nat) (tag : String) : Run Node :=
  match n.children[i]? with
  | some c => return c
  | none => Run.fault (.malformed tag)

/-- The body that a construct has to have. The index of a body is used as it is: nothing makes sure
that it is the index of a child. -/
def Node.bodyPart (n : Node) (tag : String) : Run Node :=
  match n.body? with
  | some c => return c
  | none =>
    match n.bodyIndex with
    | none => Run.fault (.noBody tag)
    | some i => Run.fail (.crash i.toNat n.children.length)

namespace Statements

/-- Runs statements, whatever they end with. -/
def all (self : Evaluator) (stack : CallStack) : List Node → Run Flow
  | [] => return .done
  | n :: ns => do
    let _ ← self stack n
    all self stack ns

/-- Runs statements up to a signal. -/
def block (self : Evaluator) (stack : CallStack) : List Node → Run Flow
  | [] => return .done
  | n :: ns => do
    match ← self stack n with
    | .signal s => return .signal s
    | .value _ => block self stack ns

end Statements

/-- What became of a branch. -/
inductive Branch where
  | skipped
  | taken
  | left (s : Signal)

namespace Branch

/-- Runs the body of a branch if its guard is true. -/
def run (self : Evaluator) (stack : CallStack) (n : Node) : Run Branch := do
  let guard ← n.part 0 "IF"
  if ← self.truth stack guard then
    let body ← n.bodyPart "IF"
    match ← self stack body with
    | .signal s => return .left s
    | .value _ => return .taken
  else return .skipped

/-- Runs a branch that stands alone. -/
def alone (self : Evaluator) (stack : CallStack) (n : Node) : Run Flow := do
  match ← run self stack n with
  | .left s => return .signal s
  | _ => return .done

/-- Runs the first branch whose guard is true. -/
def chain (self : Evaluator) (stack : CallStack) : List Node → Run Flow
  | [] => return .done
  | n :: ns => do
    match ← run self stack n with
    | .skipped => chain self stack ns
    | .taken => return .done
    | .left s => return .signal s

end Branch

namespace Loop

/-- How a loop ends because of the end of its body: a signal that leaves the loop, or none. -/
def left? : Flow → Option Flow
  | .signal .exitLoop => some .done
  | .signal (.returned v) => some (.signal (.returned v))
  | _ => none

/-- Turns of a loop that starts with its guard. -/
def whileTurns (self : Evaluator) (stack : CallStack) (guard body : Node) : Nat → Run Flow
  | 0 => Run.exhausted
  | turns + 1 => do
    if ← self.truth stack guard then
      match left? (← self stack body) with
      | some f => return f
      | none => whileTurns self stack guard body turns
    else return .done

/-- Turns of a loop that ends with its guard. -/
def doTurns (self : Evaluator) (stack : CallStack) (guard body : Node) : Nat → Run Flow
  | 0 => Run.exhausted
  | turns + 1 => do
    match left? (← self stack body) with
    | some f => return f
    | none =>
      if ← self.truth stack guard then doTurns self stack guard body turns
      else return .done

/-- Whether a counter is beyond its limit, in the direction of the step. -/
def passed (counter limit step : Value) : Except Error Bool :=
  match counter, limit, step with
  | .int i, .int n, .int d => .ok (if 0 ≤ d then decide (n < i) else decide (i < n))
  | _, _, _ =>
    match counter.number?, limit.number?, step.number? with
    | some x, some y, some d => .ok (if 0.0 ≤ d then decide (y < x) else decide (x < y))
    | _, _, _ => .error (.run (.badBounds counter.kind limit.kind step.kind))

/-- Binds a counter in the scope that owns it. -/
def setCounter (stack : CallStack) (counter : String) (v : Value) : Run Unit :=
  Run.updateScopes fun s => s.assignShared stack.chain counter v

/-- Moves a counter by a step. -/
def advance (stack : CallStack) (counter : String) (step : Value) : Run Unit := do
  let current ← Run.lookup stack.chain counter
  let next ← Run.onHeap fun h => Value.binary h .plus current step
  setCounter stack counter next

/-- Turns of a counted loop. Limit and step are evaluated in each turn. -/
def forTurns (self : Evaluator) (stack : CallStack) (counter : String) (limit step body : Node) :
    Nat → Run Flow
  | 0 => Run.exhausted
  | turns + 1 => do
    let current ← Run.lookup stack.chain counter
    let bound ← self.value (stack.hold [current]) limit
    let increment ← self.value (stack.hold [current, bound]) step
    if ← Run.ofExcept (passed current bound increment) then return .done
    else
      match left? (← self stack body) with
      | some f => return f
      | none =>
        advance stack counter increment
        forTurns self stack counter limit step body turns

/-- A loop that starts with its guard. -/
def whileLoop (self : Evaluator) (turns : Nat) (stack : CallStack) (n : Node) : Run Flow := do
  let guard ← n.part 0 "WHILE"
  let body ← n.bodyPart "WHILE"
  whileTurns self stack guard body turns

/-- A loop that ends with its guard. -/
def doLoop (self : Evaluator) (turns : Nat) (stack : CallStack) (n : Node) : Run Flow := do
  let guard ← n.part 0 "DO"
  let body ← n.bodyPart "DO"
  doTurns self stack guard body turns

/-- A counted loop. -/
def forLoop (self : Evaluator) (turns : Nat) (stack : CallStack) (counter : String) (n : Node) :
    Run Flow := do
  let start ← n.part 0 "FOR"
  let limit ← n.part 1 "FOR"
  let step ← n.part 2 "FOR"
  let body ← n.bodyPart "FOR"
  let v ← self.value stack start
  setCounter stack counter v
  forTurns self stack counter limit step body turns

end Loop

/-- Binds a function of the program in the innermost scope. -/
def defineClosure (stack : CallStack) (n : Node) (tag name : String) (params : List String) :
    Run Flow := do
  let body ← n.bodyPart tag
  let serial ← Run.take fun m => m.nextSerial
  let c : Closure := ⟨serial, name, params, body, stack.chain⟩
  Run.updateScopes fun s => s.define (Scopes.innermost stack.chain) name (.closure c)
  return .done

/-- Runs a script. -/
def runScript (path : String) : Run Flow := do
  let ended ← Run.take fun m => m.runScript path
  Run.ofExcept (ended.mapError .disk)
  return .done

/-- Binds the contents of a library, or runs a script, which finds what was dropped on the disk. -/
def includeUnit (stack : CallStack) : Inclusion → Run Flow
  | .library name =>
    match Bundle.ofName? name with
    | some b => do
      Run.update fun m => m.install b
      return .done
    | none => Run.fail (.moduleNotFound (Text.upperCase name))
  | .script path => do
    Run.settle stack
    runScript path

/-- Ends a call with the value of the first child. -/
def leaveCall (self : Evaluator) (stack : CallStack) : List Node → Run Flow
  | [] => return .signal (.returned .nothing)
  | n :: _ => do return .signal (.returned (← self.value stack n))

end LineBasic
