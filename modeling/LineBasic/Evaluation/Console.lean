import LineBasic.Evaluation.Operation

/-!
# The console, and `SWAP`

Built-ins that take their arguments as nodes.

* `Console.print` : each value is printed as soon as it is evaluated.
* `Console.input` : a line from the console, nothing at its end.
* `exchange` : two variables with their values exchanged.
* `Builtin.onNodes?` : all built-ins of this kind, the operators among them.
-/

namespace LineBasic
namespace Console

/-- Prints the values of nodes, each followed by `ending`. -/
def printAll (self : Evaluator) (stack : CallStack) (ending : String) : List Node → Run Unit
  | [] => return ()
  | n :: ns => do
    let v ← self.value stack n
    Run.print ((← Run.display v) ++ ending)
    printAll self stack ending ns

/-- Prints values; without any, `ending` alone. -/
def print (self : Evaluator) (stack : CallStack) (ending : String) (args : List Node) :
    Run Value := do
  if args.isEmpty then Run.print ending else printAll self stack ending args
  return .nothing

/-- Prints a question, if there is one. -/
def ask (self : Evaluator) (stack : CallStack) : Option Node → Run Unit
  | none => return ()
  | some n => do
    let v ← self.value stack n
    Run.print (← Run.display v)

/-- Reads a line. A line that is not text is used up. -/
def readLine : Run Value := do
  let line ← Run.take fun m =>
    let (line, input) := m.input.programLine
    (line, { m with input := input })
  return Files.lineValue (← Run.ofExcept ((lineText line).mapError .disk))

/-- Asks for a line. -/
def input (self : Evaluator) (stack : CallStack) : List Node → Run Value
  | [] => readLine
  | [question] => do
    ask self stack (some question)
    readLine
  | args => Run.fail (.argumentCount "INPUT" 1 args.length)

/-- What clears the screen and puts the cursor in its corner. -/
def clear : String := "\x1b[2J\x1b[H"

end Console

/-- Exchanges the values of two variables, each in the scope that owns it. -/
def exchange (self : Evaluator) (stack : CallStack) : List Node → Run Value
  | [a, b] =>
    match a.name?, b.name? with
    | some x, some y => do
      let v ← self.value stack a
      let w ← self.value stack b
      Run.updateScopes fun s => s.assignShared stack.chain x w
      Run.updateScopes fun s => s.assignShared stack.chain y v
      return .nothing
    | _, _ => Run.fault .swapTargets
  | args => Run.fail (.argumentCount "SWAP" 2 args.length)

/-- A built-in that evaluates its arguments itself. -/
def Builtin.onNodes? (self : Evaluator) (stack : CallStack) (args : List Node) :
    Builtin → Option (Run Value)
  | .operator op => some (Operation.run self stack op args)
  | .print => some (Console.print self stack "\n" args)
  | .write => some (Console.print self stack "" args)
  | .input => some (Console.input self stack args)
  | .cls => some do
    Run.print Console.clear
    return .nothing
  | .swap => some (exchange self stack args)
  | _ => none

end LineBasic
