import LineBasic.Grammar.Rule

/-!
# Expressions

From loose to tight: `AND` and `OR`; `NOT`; comparisons; `AS`; `+` and `-`; `*`, `/`, `\` and `MOD`;
`^`; the minus sign; and what needs no operator. All levels with two operands group from the left.

Expressions nest: in parentheses, arguments and elements, in a conditional, and under `NOT`
and the minus sign. Only so many levels may be open at once. `Level` holds the three rules
that can be nested, with the room that is left for them; `Level.above` builds them from
those with one level less.

* `Rule.expression` : the rule for expressions.
-/

namespace LineBasic

/-- The rules that can stand inside others, for one amount of room. -/
structure Level where
  expression : Rule Node
  negation : Rule Node
  unary : Rule Node

namespace Level

/-- No room is left. -/
def floor : Level := ⟨Rule.fail .tooDeep, Rule.fail .tooDeep, Rule.fail .tooDeep⟩

/-- The conditional expression after its `IF`. -/
def conditional (inner : Level) : Rule Node := do
  let guard ← inner.expression
  let _ ← Rule.expect (.word .thenWord) .chooseThen
  let taken ← inner.expression
  let _ ← Rule.expect (.word .elseWord) .chooseElse
  let other ← inner.expression
  return .operation .choose [guard, taken, other]

/-- A name, or a call if a parenthesis follows. -/
def named (inner : Level) (name : String) : Rule Node := do
  if ← Rule.accept .leftParen then
    let args ← Rule.enclosed inner.expression .rightParen .argumentsClose
    return .call name args
  else
    return .ofName name

/-- An expression in parentheses, after the opening one. -/
def group (inner : Level) : Rule Node := do
  let e ← inner.expression
  let _ ← Rule.expect .rightParen .groupClose
  return e

/-- The elements of an array, after the opening brace. -/
def elements (inner : Level) : Rule Node := do
  let es ← Rule.enclosed inner.expression .rightBrace .elementsClose
  return .array es

/-- An expression that needs no operator. -/
def primary (inner : Level) : Rule Node
  | [] => .error (.noExpression (Rule.peekText []))
  | t :: rest =>
    match t.kind with
    | .integer => .ok (.literal t.value, rest)
    | .decimal => .ok (.literal t.value, rest)
    | .text => .ok (.literal t.value, rest)
    | .name => inner.named t.lexeme rest
    | .leftParen => inner.group rest
    | .leftBrace => inner.elements rest
    | .word .ifWord => inner.conditional rest
    | _ => .error (.noExpression t.describe)

/-- A minus sign before an operand, or an operand. -/
def unaryRule (inner : Level) : Rule Node := do
  if ← Rule.accept .minus then
    let e ← inner.unary
    return .operation .negate [e]
  else
    inner.primary

/-- The operator of powers. -/
def powerSign? : TokenKind → Option Operator
  | .caret => some .power
  | _ => none

/-- The operators of factors. -/
def factorSign? : TokenKind → Option Operator
  | .star => some .times
  | .slash => some .divide
  | .backslash => some .floorDivide
  | .word .modWord => some .modulo
  | _ => none

/-- The operators of terms. -/
def termSign? : TokenKind → Option Operator
  | .plus => some .plus
  | .minus => some .minus
  | _ => none

/-- The operator of conversions. -/
def conversionSign? : TokenKind → Option Operator
  | .word .asWord => some .convert
  | _ => none

/-- The operators of comparisons. -/
def comparisonSign? : TokenKind → Option Operator
  | .equal => some .equal
  | .notEqual => some .notEqual
  | .greater => some .greater
  | .greaterEqual => some .greaterEqual
  | .less => some .less
  | .lessEqual => some .lessEqual
  | _ => none

/-- The operators of the loosest level. -/
def logicSign? : TokenKind → Option Operator
  | .word .andWord => some .and
  | .word .orWord => some .or
  | _ => none

/-- Powers. -/
def powerRule (inner : Level) : Rule Node := Rule.leftChain inner.unaryRule powerSign?

/-- Products. -/
def factorRule (inner : Level) : Rule Node := Rule.leftChain inner.powerRule factorSign?

/-- Sums. -/
def termRule (inner : Level) : Rule Node := Rule.leftChain inner.factorRule termSign?

/-- Conversions. -/
def conversionRule (inner : Level) : Rule Node := Rule.leftChain inner.termRule conversionSign?

/-- Comparisons. -/
def comparisonRule (inner : Level) : Rule Node :=
  Rule.leftChain inner.conversionRule comparisonSign?

/-- `NOT` before an operand, or a comparison. -/
def negationRule (inner : Level) : Rule Node := do
  if ← Rule.accept (.word .notWord) then
    let e ← inner.negation
    return .operation .not [e]
  else
    inner.comparisonRule

/-- A whole expression. -/
def logicRule (inner : Level) : Rule Node := Rule.leftChain inner.negationRule logicSign?

/-- The rules with one more level of room. -/
def above (inner : Level) : Level := ⟨inner.logicRule, inner.negationRule, inner.unaryRule⟩

/-- The rules with room for `room` levels. -/
def withRoom : Nat → Level
  | 0 => floor
  | room + 1 => (withRoom room).above

/-- The number of levels that may be open at once. -/
def nestingLimit : Nat := 256

/-- The rules at the start of a statement. -/
def outermost : Level := withRoom nestingLimit

end Level

/-- An expression. -/
def Rule.expression : Rule Node := Level.outermost.expression

end LineBasic
