/-!
# Operators

The built-in operations that the grammar writes as calls. Their names are bracketed, so that no name
of a program can be one of them.

* `Operator.name` : the name in the tree, `Operator.symbol` : the sign in messages.
* `Operator.arity` : the number of arguments, `Operator.accepts` : the counts it takes.
-/

namespace LineBasic

/-- A built-in operation of the grammar. -/
inductive Operator where
  | plus | minus | times | divide | floorDivide | modulo | power | negate
  | not | and | or
  | equal | notEqual | greater | less | greaterEqual | lessEqual
  | convert | assign | assignElement | declare | choose
  deriving DecidableEq, Repr, Inhabited

namespace Operator

/-- Every operator, once. -/
def all : List Operator :=
  [plus, minus, times, divide, floorDivide, modulo, power, negate, not, and, or, equal, notEqual,
    greater, less, greaterEqual, lessEqual, convert, assign, assignElement, declare, choose]

/-- The name of an operator in the tree. -/
def name : Operator → String
  | plus => "<PLUS>"
  | minus => "<MINUS>"
  | times => "<TIMES>"
  | divide => "<DIVIDE>"
  | floorDivide => "<EXACTDIV>"
  | modulo => "<MOD>"
  | power => "<EXP>"
  | negate => "<UMINUS>"
  | not => "<NOT>"
  | and => "<AND>"
  | or => "<OR>"
  | equal => "<EQUAL>"
  | notEqual => "<NOT_EQUAL>"
  | greater => "<GREATER_THAN>"
  | less => "<LESS_THAN>"
  | greaterEqual => "<EQUAL_GREATER_THAN>"
  | lessEqual => "<EQUAL_LESS_THAN>"
  | convert => "<AS>"
  | assign => "<ASSIGN>"
  | assignElement => "<ASSIGN_ARRAY>"
  | declare => "<DIM_ARRAY>"
  | choose => "<CHOOSE>"

/-- The sign of an operator in messages. -/
def symbol : Operator → String
  | plus => "+"
  | minus => "-"
  | times => "*"
  | divide => "/"
  | floorDivide => "\\"
  | modulo => "MOD"
  | power => "^"
  | negate => "-"
  | not => "NOT"
  | and => "AND"
  | or => "OR"
  | equal => "="
  | notEqual => "<>"
  | greater => ">"
  | less => "<"
  | greaterEqual => ">="
  | lessEqual => "<="
  | convert => "AS"
  | assign => "="
  | assignElement => "="
  | declare => "DIM"
  | choose => "IF"

/-- The number of arguments of an operator. -/
def arity : Operator → Nat
  | negate => 1
  | not => 1
  | assignElement => 3
  | choose => 3
  | _ => 2

/-- Whether an operator takes this many arguments; a declaration has an optional size. -/
def accepts (op : Operator) (count : Nat) : Bool :=
  count = op.arity || (op = declare && count = 3)

theorem mem_all (op : Operator) : op ∈ all := by cases op <;> decide

theorem name_injective {a b : Operator} (h : a.name = b.name) : a = b := by
  revert h; cases a <;> cases b <;> decide

end Operator
end LineBasic
