import LineBasic.Function
import LineBasic.Machine.Sweep

/-!
# Flow of control

Evaluating a node ends with a value, or with a signal that travels outwards until a loop or a call
takes it.

* `Signal`, `Flow` : the two ways to end.
* `CallStack` : the calls under way. A node is evaluated in the chain of the innermost call.
* `CallStack.hold`, `CallStack.roots` : values that are not stored anywhere yet,
  and all that keeps files.
* `Evaluator` : evaluation of nodes. The rules below take the evaluator of the parts as an argument.
* `Evaluator.value`, `Evaluator.values`, `Evaluator.truth` : nodes as expressions.
-/

namespace LineBasic

/-- A way to leave a construct. -/
inductive Signal where
  | exitLoop
  | continueLoop
  | returned (v : Value)

/-- How evaluating a node ends. -/
inductive Flow where
  | value (v : Value)
  | signal (s : Signal)

namespace Flow

/-- The end of a statement. -/
def done : Flow := .value .nothing

/-- The value of a node as an expression; a signal has none. -/
def result : Flow → Value
  | value v => v
  | signal _ => .nothing

end Flow

/-- The chains of the calls under way, the innermost first, with the number of calls allowed. Below
the calls lies the chain of the top level. -/
structure CallStack where
  limit : Nat
  frames : List Chain
  /-- The values that rules keep aside while they evaluate further parts. -/
  held : List Value

namespace CallStack

/-- No call is under way. -/
def bottom (limit : Nat) : CallStack := ⟨limit, [[Scopes.global]], []⟩

/-- The chain that names are looked up in. -/
def chain (s : CallStack) : Chain := s.frames.headD [Scopes.global]

/-- No further call is allowed. -/
def isFull (s : CallStack) : Bool := s.limit < s.frames.length

/-- One more call, in a chain of its own. -/
def push (s : CallStack) (c : Chain) : CallStack := { s with frames := c :: s.frames }

/-- The same calls, with further values kept aside. -/
def hold (s : CallStack) (vs : List Value) : CallStack := { s with held := vs ++ s.held }

/-- What the calls under way refer to. -/
def roots (s : CallStack) : List Referent :=
  .scope Scopes.global :: s.frames.flatten.map .scope ++ s.held.flatMap Value.referents

@[simp] theorem hold_nil (s : CallStack) : s.hold [] = s := rfl

theorem hold_hold (s : CallStack) (vs ws : List Value) :
    (s.hold vs).hold ws = s.hold (ws ++ vs) := by
  simp only [hold, List.append_assoc]

@[simp] theorem hold_limit (s : CallStack) (vs : List Value) : (s.hold vs).limit = s.limit := rfl

@[simp] theorem hold_frames (s : CallStack) (vs : List Value) : (s.hold vs).frames = s.frames := rfl

@[simp] theorem hold_chain (s : CallStack) (vs : List Value) : (s.hold vs).chain = s.chain := rfl

@[simp] theorem hold_isFull (s : CallStack) (vs : List Value) : (s.hold vs).isFull = s.isFull := rfl

end CallStack

/-- Evaluation of nodes under a call stack. -/
abbrev Evaluator := CallStack → Node → Run Flow

namespace Evaluator

/-- The value of a node. -/
@[inline] def value (self : Evaluator) (stack : CallStack) (n : Node) : Run Value := do
  return (← self stack n).result

/-- The values of nodes, one after another. -/
def values (self : Evaluator) (stack : CallStack) : List Node → Run (List Value)
  | [] => return []
  | n :: ns => do
    let v ← self.value stack n
    let vs ← values self (stack.hold [v]) ns
    return v :: vs

/-- The truth of the value of a node. -/
@[inline] def truth (self : Evaluator) (stack : CallStack) (n : Node) : Run Bool := do
  let v ← self.value stack n
  Run.read fun m => v.isTrue m.heap

end Evaluator

namespace Run

/-- The value of a name along a chain. -/
def lookup (chain : Chain) (name : String) : Run Value := fun m =>
  match m.scopes.find? chain name with
  | some v => .value v m
  | none => .failure (.undefinedVariable (Text.upperCase name)) m

theorem lookup_of_find? {chain : Chain} {name : String} {m : Machine} {v : Value}
    (h : m.scopes.find? chain name = some v) : lookup chain name m = .value v m := by
  simp only [lookup, h]

/-- Changes the scopes. -/
def updateScopes (f : Scopes → Scopes) : Run Unit :=
  Run.update fun m => { m with scopes := f m.scopes }

/-- Prints a text. -/
def print (s : String) : Run Unit := Run.update fun m => m.print s

/-- What was dropped reaches the disk. -/
def settle (stack : CallStack) : Run Unit := Run.update fun m => m.sweep stack.roots

/-- The text of a value. -/
def display (v : Value) : Run String := Run.read fun m => v.display m.heap

end Run
end LineBasic
