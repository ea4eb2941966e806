import LineBasic.Function.Argument
import LineBasic.Machine.Run

/-!
# Queues, stacks and arrays as sequences

All three are sequences that grow at the back. They differ in the end that `POP` takes from: a queue
gives its oldest element, a stack or an array its newest.

* `Sequences.push`, `Sequences.pop` : for all of them.
* `Sequences.front`, `Sequences.back`, `Sequences.pushFront`, `Sequences.popFront` : for arrays.
* `Sequences.newQueue`, `Sequences.newStack` : empty ones.
-/

namespace LineBasic
namespace Sequences

/-- Which end is taken from. -/
inductive End where
  | front | back
  deriving DecidableEq, Repr

/-- The element at an end, and the others. -/
def split? (e : End) (items : Array Value) : Option (Value × Array Value) :=
  match e with
  | .front => items[0]?.map fun v => (v, items.extract 1 items.size)
  | .back => items.back?.map fun v => (v, items.pop)

/-- The sequence that a value refers to, and the end that `POP` takes from. -/
def target (name : String) : Value → Except Error (SequenceId × End)
  | .array id => .ok (id, .back)
  | .stack id => .ok (id, .back)
  | .queue id => .ok (id, .front)
  | v => .error (Argument.kindFault name "a queue, a stack or an array" v)

/-- The sequence that an array refers to. -/
def arrayOf (name : String) : Value → Except Error SequenceId
  | .array id => .ok id
  | v => .error (Argument.kindFault name "an array" v)

/-- The fault of taking from an empty sequence. -/
def emptyFault (name : String) (v : Value) : Error := .run (.empty name v.kind)

/-- Adds an element at the back and gives it. -/
def push : List Value → Run Value
  | [c, v] => do
    let (id, _) ← Run.ofExcept (target "PUSH" c)
    Run.update fun m => m.edit id fun items => items.push v
    return v
  | args => Run.fail (Argument.countFault "PUSH" 2 args)

/-- Takes the element at an end of a sequence. -/
def takeFrom (name : String) (c : Value) (id : SequenceId) (e : End) : Run Value := do
  match split? e (← Run.read fun m => m.heap.sequence id) with
  | some (v, rest) =>
    Run.update fun m => m.edit id fun _ => rest
    return v
  | none => Run.fail (emptyFault name c)

/-- Takes the next element. -/
def pop : List Value → Run Value
  | [c] => do
    let (id, e) ← Run.ofExcept (target "POP" c)
    takeFrom "POP" c id e
  | args => Run.fail (Argument.countFault "POP" 1 args)

/-- Looks at the element at an end of an array. -/
def peek (name : String) (e : End) : List Value → Run Value
  | [c] => do
    let id ← Run.ofExcept (arrayOf name c)
    match split? e (← Run.read fun m => m.heap.sequence id) with
    | some (v, _) => return v
    | none => Run.fail (emptyFault name c)
  | args => Run.fail (Argument.countFault name 1 args)

/-- The first element of an array. -/
def front : List Value → Run Value := peek "FRONT" .front

/-- The last element of an array. -/
def back : List Value → Run Value := peek "BACK" .back

/-- Adds an element at the front of an array and gives it. -/
def pushFront : List Value → Run Value
  | [c, v] => do
    let id ← Run.ofExcept (arrayOf "PUSHFRONT" c)
    Run.update fun m => m.edit id fun items => #[v] ++ items
    return v
  | args => Run.fail (Argument.countFault "PUSHFRONT" 2 args)

/-- Takes the first element of an array. -/
def popFront : List Value → Run Value
  | [c] => do
    let id ← Run.ofExcept (arrayOf "POPFRONT" c)
    takeFrom "POPFRONT" c id .front
  | args => Run.fail (Argument.countFault "POPFRONT" 1 args)

/-- A new queue. -/
def newQueue : List Value → Run Value
  | [] => do return .queue (← Run.take fun m => m.allocate #[])
  | args => Run.fail (Argument.countFault "QUEUE" 0 args)

/-- A new stack. -/
def newStack : List Value → Run Value
  | [] => do return .stack (← Run.take fun m => m.allocate #[])
  | args => Run.fail (Argument.countFault "STACK" 0 args)

end Sequences
end LineBasic
