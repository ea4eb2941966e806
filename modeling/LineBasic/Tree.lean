import LineBasic.Literal
import LineBasic.Operator

/-!
# Program trees

A program is a tree of nodes. A node has a kind, children and, for constructs with a body, the index
of the child that is the body. Trees that come from source text are well shaped; a restored tree can
have any shape.

* `Control` : the constructs; `Control.tag` is their name in messages and printed trees.
* `Node` : the trees; `Node.display` prints one, a line for each node.
-/

namespace LineBasic

/-- What a `USE` statement found, if it is not source text. -/
inductive Inclusion where
  | library (name : String)
  | script (path : String)
  deriving DecidableEq, Repr

/-- The control constructs. -/
inductive Control where
  | program
  | block
  /-- A chain of branches, of which the first with a true guard runs. -/
  | chain
  /-- A guarded branch; `fallback` marks the one that `ELSE` makes. -/
  | branch (fallback : Bool)
  | whileLoop
  | doLoop
  | forLoop (counter : String)
  | subroutine (name : String) (params : List String)
  | function (name : String) (params : List String)
  | exitLoop
  | continueLoop
  | returned
  | inclusion (what : Inclusion)
  deriving DecidableEq, Repr

/-- The name of a construct. -/
def Control.tag : Control → String
  | program => "PROGRAM"
  | block => "BLOCK"
  | chain => "SEQ"
  | branch _ => "IF"
  | whileLoop => "WHILE"
  | doLoop => "DO"
  | forLoop _ => "FOR"
  | subroutine _ _ => "SUB"
  | function _ _ => "FUNCTION"
  | exitLoop => "BREAK"
  | continueLoop => "CONTINUE"
  | returned => "RETURN"
  | inclusion _ => "USE"

/-- What a node is. -/
inductive NodeKind where
  | control (c : Control)
  | call (target : String)
  | name (name : String)
  | literal (value : Literal)
  /-- An array whose elements are the children. -/
  | array
  deriving DecidableEq, Repr

/-- A program tree. -/
inductive Node where
  | mk (kind : NodeKind) (children : List Node) (body : Option UInt64)

namespace Node

instance : Inhabited Node := ⟨.mk .array [] none⟩

/-- The kind of a node. -/
def kind : Node → NodeKind
  | mk k _ _ => k

/-- The children of a node. -/
def children : Node → List Node
  | mk _ cs _ => cs

/-- The index of the body among the children. -/
def bodyIndex : Node → Option UInt64
  | mk _ _ b => b

/-- The body of a construct, if its index is that of a child. -/
def body? (n : Node) : Option Node := n.bodyIndex.bind fun i => n.children[i.toNat]?

/-- The name of a node that is one. -/
def name? (n : Node) : Option String :=
  match n.kind with
  | .name s => some s
  | _ => none

/-! ### Equality -/

mutual

/-- Whether two trees are equal. -/
def decEq : (a b : Node) → Decidable (a = b)
  | mk k cs i, mk k' cs' i' =>
    match decEqAll cs cs' with
    | .isTrue h => decidable_of_iff (k = k' ∧ i = i') (by rw [h, mk.injEq]; simp)
    | .isFalse h => .isFalse fun heq => h (mk.inj heq).2.1

/-- Whether two lists of trees are equal. -/
def decEqAll : (as bs : List Node) → Decidable (as = bs)
  | [], [] => .isTrue rfl
  | [], _ :: _ => .isFalse nofun
  | _ :: _, [] => .isFalse nofun
  | a :: as, b :: bs =>
    match decEq a b, decEqAll as bs with
    | .isTrue h, .isTrue h' => .isTrue (h ▸ h' ▸ rfl)
    | .isFalse h, _ => .isFalse fun heq => h (List.cons.inj heq).1
    | _, .isFalse h => .isFalse fun heq => h (List.cons.inj heq).2

end

instance : DecidableEq Node := decEq

/-! ### Building trees -/

/-- A node without children. -/
def leaf (k : NodeKind) : Node := mk k [] none

/-- A constant. -/
def literal (v : Literal) : Node := leaf (.literal v)

/-- A name. -/
def ofName (s : String) : Node := leaf (.name s)

/-- A call. -/
def call (target : String) (args : List Node) : Node := mk (.call target) args none

/-- A call of an operator. -/
def operation (op : Operator) (args : List Node) : Node := call op.name args

/-- An array of elements. -/
def array (elements : List Node) : Node := mk .array elements none

/-- A construct without a body. -/
def plain (c : Control) (children : List Node) : Node := mk (.control c) children none

/-- A block of statements. -/
def block (statements : List Node) : Node := plain .block statements

/-- A construct whose body comes after the nodes of its head. -/
def construct (c : Control) (head statements : List Node) : Node :=
  mk (.control c) (head ++ [block statements]) (some (UInt64.ofNat head.length))

/-- A whole program. -/
def program (statements : List Node) : Node := plain .program statements

/-! ### Printing trees -/

end Node

/-- What a printed tree shows of a node. -/
def NodeKind.label : NodeKind → String
  | control c => "<" ++ c.tag ++ ">"
  | call target => "call " ++ target
  | name s => "id " ++ s
  | literal v => v.display
  | array => "array"

namespace Node

/-- The mark that a line of a printed tree starts with, once for each level. -/
def indent (depth : Nat) : String := String.join (List.replicate depth "|   ")

mutual

/-- The lines of a printed tree at a depth. -/
def outline (depth : Nat) : Node → List String
  | mk k cs _ => (indent depth ++ k.label) :: outlineAll (depth + 1) cs

/-- The lines of printed trees one after another. -/
def outlineAll (depth : Nat) : List Node → List String
  | [] => []
  | n :: ns => outline depth n ++ outlineAll depth ns

end

/-- The printed tree. -/
def display (n : Node) : String := String.join ((n.outline 0).map (· ++ "\n"))

end Node
end LineBasic
