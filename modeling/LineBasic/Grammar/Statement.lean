import LineBasic.Grammar.Expression

/-!
# Statements

Every statement is one line. A line either stands for a node of its own, or opens, continues or
closes a construct; what it means for the open constructs is not decided here.

* `Statement` : what a line says.
* `Rule.statement` : the rule for a line that is not empty.

A line that starts with a name is an assignment, an assignment to an element, a call with or without
parentheses, or an expression. To tell these apart, the rule looks for the parenthesis that matches
the one after the name, and at the token behind it.
-/

namespace LineBasic

/-- The kinds of loops. -/
inductive LoopKind where
  | whileLoop | doLoop | forLoop
  deriving DecidableEq, Repr

/-- The word that names a kind of loop. -/
def LoopKind.word : LoopKind → String
  | whileLoop => "WHILE"
  | doLoop => "DO"
  | forLoop => "FOR"

/-- The kinds of closures. -/
inductive ClosureKind where
  | subroutine | function
  deriving DecidableEq, Repr

/-- The word that names a kind of closure. -/
def ClosureKind.word : ClosureKind → String
  | subroutine => "SUB"
  | function => "FUNCTION"

/-- The construct that defines a closure. -/
def ClosureKind.control (k : ClosureKind) (name : String) (params : List String) : Control :=
  match k with
  | subroutine => .subroutine name params
  | function => .function name params

/-- The ways to leave a turn of a loop. -/
inductive Jump where
  | exit | skip
  deriving DecidableEq, Repr

/-- The word of a jump. -/
def Jump.word : Jump → String
  | exit => "EXIT"
  | skip => "CONTINUE"

/-- The node of a jump. -/
def Jump.node : Jump → Node
  | exit => .plain .exitLoop []
  | skip => .plain .continueLoop []

/-- The closing statements with a fixed wording. -/
inductive Closer where
  | endIf | endWhile | wend | endFor | endSub | endFunction
  deriving DecidableEq, Repr

/-- The words of a closing statement. -/
def Closer.words : Closer → String
  | endIf => "END IF"
  | endWhile => "END WHILE"
  | wend => "WEND"
  | endFor => "END FOR"
  | endSub => "END SUB"
  | endFunction => "END FUNCTION"

/-- The word of the construct that a closing statement closes. -/
def Closer.opener : Closer → String
  | endIf => "IF"
  | endWhile => "WHILE"
  | wend => "WHILE"
  | endFor => "FOR"
  | endSub => "SUB"
  | endFunction => "FUNCTION"

/-- What a line says. -/
inductive Statement where
  /-- A statement that is complete in itself. -/
  | simple (node : Node)
  | openIf (guard : Node)
  | elseIf (guard : Node)
  | otherwise
  | openWhile (guard : Node)
  | openDo
  | openFor (counter : String) (start limit step : Node)
  | openClosure (kind : ClosureKind) (name : String) (params : List String)
  | close (closer : Closer)
  /-- The end of a `DO` loop, with the guard for another turn. -/
  | loop (guard : Node)
  /-- The end of a `FOR` loop, with the counter if it is named. -/
  | next (counter : Option String)
  | jump (j : Jump) (kind : LoopKind)
  | giveBack (value : Option Node)
  | use (name : String)

namespace Rule

/-- The value of an assignment to a name. -/
def assignment (name : String) : Rule Statement := do
  let value ← expression
  lineEnd
  return .simple (.operation .assign [.ofName name, value])

/-- `LET`. -/
def letStatement : Rule Statement := do
  let name ← expectName .letName
  let _ ← expect .equal .letEqual
  assignment name

/-- The size of a declared array, if there is one. -/
def declaredSize : Rule (List Node) := do
  if ← accept .leftParen then
    let size ← expression
    let _ ← expect .rightParen .dimSizeClose
    return [size]
  else
    return []

/-- `DIM`. -/
def dimStatement : Rule Statement := do
  let name ← expectName .dimName
  let size ← declaredSize
  let _ ← expect (.word .asWord) .dimAs
  let type ← expectName .dimType
  lineEnd
  return .simple (.operation .declare ([.ofName name, .ofName type] ++ size))

/-- A condition and its `THEN`. -/
def condition (what : Expectation) : Rule Node := do
  let guard ← expression
  let _ ← expect (.word .thenWord) what
  lineEnd
  return guard

/-- What an `END` ends. -/
def closerOf : TokenKind → Option Closer
  | .word .ifWord => some .endIf
  | .word .whileWord => some .endWhile
  | .word .forWord => some .endFor
  | .word .subWord => some .endSub
  | .word .functionWord => some .endFunction
  | _ => none

/-- `END` and the word of a construct. -/
def endStatement : Rule Statement
  | [] => .error (.expected .endOfWhat)
  | t :: rest =>
    match closerOf t.kind with
    | none => .error (.expected .endOfWhat)
    | some closer => (lineEnd rest).map fun r => (.close closer, r.2)

/-- The guard for another turn after `UNTIL`; without the word there always is another turn. -/
def untilGuard : Rule Node := do
  if ← accept (.word .untilWord) then
    let e ← expression
    return .operation .not [e]
  else
    return .literal (.bool true)

/-- The guard for another turn. -/
def loopGuard : Rule Node := do
  if ← accept (.word .whileWord) then expression else untilGuard

/-- `LOOP` with the guard for another turn. -/
def loopStatement : Rule Statement := do
  let guard ← loopGuard
  lineEnd
  return .loop guard

/-- The step of a `FOR` loop; it is one if it is not given. -/
def stepOf : Rule Node := do
  if ← accept (.word .stepWord) then expression else return .literal (.int 1)

/-- `FOR`. -/
def forStatement : Rule Statement := do
  let counter ← expectName .forName
  let _ ← expect .equal .forEqual
  let start ← expression
  let _ ← expect (.word .toWord) .forTo
  let limit ← expression
  let step ← stepOf
  lineEnd
  return .openFor counter start limit step

/-- `NEXT` with the counter, if it is named. -/
def nextStatement : Rule Statement
  | [] => .ok (.next none, [])
  | t :: rest =>
    if t.kind = .name then (lineEnd rest).map fun r => (.next (some t.lexeme), r.2)
    else (lineEnd (t :: rest)).map fun r => (.next none, r.2)

/-- Parameter names between commas, none of them one of `seen` and at most `limit`. -/
def parameterNames : Nat → List String → Rule (List String)
  | 0, _ => fail .tooManyParameters
  | limit + 1, seen => do
    let name ← expectName .parameterName
    if seen.contains name then fail (.duplicateParameter name)
    else
      if ← accept .comma then
        let names ← parameterNames limit (name :: seen)
        return name :: names
      else
        return [name]

/-- Parameters after the opening parenthesis. -/
def parameters : Rule (List String) := do
  let names ← if ← sees .rightParen then pure [] else parameterNames itemLimit []
  let _ ← expect .rightParen .parametersClose
  return names

/-- `SUB` or `FUNCTION`. -/
def closureStatement (kind : ClosureKind) : Rule Statement := do
  let name ← expectName (.closureName kind.word)
  let params ← if ← accept .leftParen then parameters else pure []
  lineEnd
  return .openClosure kind name params

/-- `DEFUN`: a function whose body returns one expression. -/
def defunStatement : Rule Statement := do
  let name ← expectName .defunName
  let _ ← expect .leftParen .defunOpen
  let params ← parameters
  let _ ← expect .equal .defunEqual
  let value ← expression
  lineEnd
  return .simple (.construct (.function name params) [] [.plain .returned [value]])

/-- `RETURN` with its value, if there is one. -/
def returnStatement : Rule Statement := fun ts =>
  if (peekKind ts).endsLine then .ok (.giveBack none, ts)
  else (do
    let value ← expression
    lineEnd
    return Statement.giveBack (some value) : Rule Statement) ts

/-- The kind of loop that a word names. -/
def loopKindOf : TokenKind → Option LoopKind
  | .word .whileWord => some .whileLoop
  | .word .doWord => some .doLoop
  | .word .forWord => some .forLoop
  | _ => none

/-- `EXIT` or `CONTINUE` and the kind of loop. -/
def jumpStatement (j : Jump) : Rule Statement
  | [] => .error (.expected (.loopKind j.word))
  | t :: rest =>
    match loopKindOf t.kind with
    | none => .error (.expected (.loopKind j.word))
    | some kind => (lineEnd rest).map fun r => (.jump j kind, r.2)

/-- `USE`. -/
def useStatement : Rule Statement := do
  let name ← expectName .moduleName
  lineEnd
  return .use name

/-- A line that is an expression. -/
def expressionStatement : Rule Statement := do
  let e ← expression
  lineEnd
  return .simple e

/-! ### Lines that start with a name -/

/-- The tokens after the parenthesis that closes the `depth` open ones, on the same line. -/
def afterClosing : Nat → List Token → Option (List Token)
  | _, [] => none
  | depth, t :: ts =>
    if t.kind.endsLine then none
    else if t.kind = .leftParen then afterClosing (depth + 1) ts
    else if t.kind = .rightParen then
      match depth with
      | 0 => none
      | 1 => some ts
      | d + 2 => afterClosing (d + 1) ts
    else afterClosing depth ts

/-- An assignment to an element, after the opening parenthesis. -/
def elementAssignment (name : String) : Rule Statement := do
  let index ← expression
  let _ ← expect .rightParen .elementClose
  let _ ← expect .equal .elementEqual
  let value ← expression
  lineEnd
  return .simple (.operation .assignElement [.ofName name, index, value])

/-- A call with parentheses, after the opening one. -/
def callStatement (name : String) : Rule Statement := do
  let args ← enclosed expression .rightParen .argumentsClose
  lineEnd
  return .simple (.call name args)

/-- A call without parentheses. -/
def bareCall (name : String) : Rule Statement := do
  let args ← arguments expression
  lineEnd
  return .simple (.call name args)

/-- The tokens that an expression can start with. -/
def startsExpression : TokenKind → Bool
  | .name => true
  | .integer => true
  | .decimal => true
  | .text => true
  | .leftParen => true
  | .leftBrace => true
  | .minus => true
  | .word .notWord => true
  | .word .ifWord => true
  | _ => false

/-- A call without arguments or without parentheses, or an expression that starts with `name`. -/
def nameStatement (name : Token) : Rule Statement := fun rest =>
  if (peekKind rest).endsLine then .ok (.simple (.call name.lexeme []), rest)
  else if startsExpression (peekKind rest) then bareCall name.lexeme rest
  else expressionStatement (name :: rest)

/-- A line that starts with `name`. -/
def namedStatement (name : Token) : Rule Statement := fun rest =>
  match rest with
  | [] => nameStatement name []
  | t :: more =>
    match t.kind with
    | .equal => assignment name.lexeme more
    | .leftParen =>
      match afterClosing 1 more with
      | none => nameStatement name rest
      | some after =>
        if peekKind after = .equal then elementAssignment name.lexeme more
        else if (peekKind after).endsLine then callStatement name.lexeme more
        else nameStatement name rest
    | _ => nameStatement name rest

/-- The statement of a line that is not empty. -/
def statement : Rule Statement
  | [] => .error (.noExpression (peekText []))
  | t :: rest =>
    match t.kind with
    | .name => namedStatement t rest
    | .word .letWord => letStatement rest
    | .word .dimWord => dimStatement rest
    | .word .ifWord => (condition .ifThen rest).map fun r => (.openIf r.1, r.2)
    | .word .elseIfWord => (condition .elseIfThen rest).map fun r => (.elseIf r.1, r.2)
    | .word .elseWord => (lineEnd rest).map fun r => (.otherwise, r.2)
    | .word .endWord => endStatement rest
    | .word .whileWord => (do
        let guard ← expression
        lineEnd
        return Statement.openWhile guard : Rule Statement) rest
    | .word .wendWord => (lineEnd rest).map fun r => (.close .wend, r.2)
    | .word .doWord => (lineEnd rest).map fun r => (.openDo, r.2)
    | .word .loopWord => loopStatement rest
    | .word .forWord => forStatement rest
    | .word .nextWord => nextStatement rest
    | .word .subWord => closureStatement .subroutine rest
    | .word .functionWord => closureStatement .function rest
    | .word .defunWord => defunStatement rest
    | .word .returnWord => returnStatement rest
    | .word .exitWord => jumpStatement .exit rest
    | .word .continueWord => jumpStatement .skip rest
    | .word .useWord => useStatement rest
    | _ => expressionStatement (t :: rest)

end Rule
end LineBasic
