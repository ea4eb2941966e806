import LineBasic.Token
import LineBasic.Tree
import LineBasic.Grammar.Fault

/-!
# Grammar rules

A rule reads something at the start of a line's tokens and leaves the rest, or says what is wrong.
The last token of a line is its end, so a rule that looks too far sees that token.

* `Rule` : the rules; the tokens are their state, a `SyntaxFault` their failure.
* `peek`, `accept`, `expect` : the next token looked at, taken if it has a kind, or demanded.
* `leftChain` : operands joined by operators of one level, grouped from the left.
* `commaItems`, `commaList` : items between commas, up to a limit.
-/

namespace LineBasic

/-- Reads something at the start of the tokens of a line. -/
abbrev Rule (α : Type) := StateT (List Token) (Except SyntaxFault) α

namespace Rule

/-- Gives up. -/
def fail {α : Type} (f : SyntaxFault) : Rule α := fun _ => .error f

/-- The kind of the next token; no token counts as the end. -/
def peekKind (ts : List Token) : TokenKind :=
  match ts with
  | [] => .finish
  | t :: _ => t.kind

/-- The next token as a diagnostic names it. -/
def peekText (ts : List Token) : String :=
  match ts with
  | [] => "end of input"
  | t :: _ => t.describe

/-- Whether the next token has the kind; the tokens stay. -/
def sees (kind : TokenKind) : Rule Bool := fun ts => .ok (peekKind ts = kind, ts)

/-- Takes the next token if it has the kind, and says whether it did. -/
def accept (kind : TokenKind) : Rule Bool
  | t :: ts => if t.kind = kind then .ok (true, ts) else .ok (false, t :: ts)
  | [] => .ok (false, [])

/-- Takes the next token, which has to have the kind. -/
def expect (kind : TokenKind) (what : Expectation) : Rule Token
  | t :: ts => if t.kind = kind then .ok (t, ts) else .error (.expected what)
  | [] => .error (.expected what)

/-- Takes the next token, which has to be a name, and gives its text. -/
def expectName (what : Expectation) : Rule String := do
  let t ← expect .name what
  return t.lexeme

/-- The end of the line, which is all that may be left. -/
def lineEnd : Rule Unit := fun ts =>
  if (peekKind ts).endsLine then .ok ((), ts) else .error (.trailing (peekText ts))

/-- Further operands after `left`, at most `fuel` of them. -/
def leftChainFrom (operand : Rule Node) (operator? : TokenKind → Option Operator) :
    Nat → Node → Rule Node
  | 0, left => pure left
  | fuel + 1, left => fun ts =>
    match ts with
    | [] => .ok (left, [])
    | t :: rest =>
      match operator? t.kind with
      | none => .ok (left, t :: rest)
      | some op =>
        match operand rest with
        | .error f => .error f
        | .ok (right, rest') =>
          leftChainFrom operand operator? fuel (.operation op [left, right]) rest'

/-- Operands joined by operators, grouped from the left. Every operator takes a token, so there are
no more of them than tokens. -/
def leftChain (operand : Rule Node) (operator? : TokenKind → Option Operator) : Rule Node := do
  let left ← operand
  let fuel := (← get).length
  leftChainFrom operand operator? fuel left

/-- The largest number of arguments and of parameters. -/
def itemLimit : Nat := 255

/-- One or more items between commas, at most `limit`. -/
def commaItems {α : Type} (item : Rule α) (tooMany : SyntaxFault) : Nat → Rule (List α)
  | 0 => fail tooMany
  | limit + 1 => do
    let a ← item
    if ← accept .comma then
      let as ← commaItems item tooMany limit
      return a :: as
    else
      return [a]

/-- Expressions between commas. -/
def arguments (expression : Rule Node) : Rule (List Node) :=
  commaItems expression .tooManyArguments itemLimit

/-- Expressions between commas, none or more, up to a closing token. -/
def enclosed (expression : Rule Node) (closing : TokenKind) (what : Expectation) :
    Rule (List Node) := do
  let items ← if ← sees closing then pure [] else arguments expression
  let _ ← expect closing what
  return items

end Rule
end LineBasic
