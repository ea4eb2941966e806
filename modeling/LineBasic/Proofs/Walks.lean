import LineBasic.Program.Reader

/-!
# Reading with a cursor

Source text can also be read by walking over all tokens of a text with a cursor. Tokens are looked
at without asking whether they are there, the cursor moves on and now and then back, and the tokens
and the place are put aside while a module is read. A walk that looks at a token that is not there,
goes below zero, or turns in a loop without end has crashed. It keeps notes: of the cursor whenever
it is used or moved, of every step back, and of every turn of the loop over statements.

* `Cursor` : the tokens of a text and the place among them; `Cursor.Inside` :
  the place is one of theirs.
* `Note`, `Note.Sound` : what is noted of a walk, and what should hold of it.
* `Walk` : walks; `Ending` : a value, a fault, or a crash.
* `Walk.peek`, `Walk.advance`, `Walk.stepBack`, `Walk.closingPlace` : what is done with the tokens.
* `LevelWalks`, `Walk.statement` : the grammar.
* `Walk.statements`, `Walk.text`, `Walk.useModule`, `Walk.parse` : texts, and modules inside them.
-/

namespace LineBasic

/-! ### Cursors and notes -/

/-- The tokens of a text and the place among them. -/
structure Cursor where
  tokens : List Token
  place : Nat
  /-- The place of the first token of the statement that is read. -/
  start : Nat

/-- The last token is the end of the text, and no other one is. -/
def Tokens.EndsOnce (ts : List Token) : Prop :=
  ∃ us e, ts = us ++ [e] ∧ e.kind = .finish ∧ ∀ t ∈ us, t.kind ≠ .finish

/-- The place is at most that of the end of the text. -/
structure Cursor.Inside (c : Cursor) : Prop where
  ends : Tokens.EndsOnce c.tokens
  bound : c.place ≤ c.tokens.length - 1

/-- What is noted of a walk. -/
inductive Note where
  /-- The cursor as it is used, or as it is after a move. -/
  | at (c : Cursor)
  /-- The cursor after a step back. -/
  | back (c : Cursor)
  /-- The cursor before and after a turn of the loop over statements. -/
  | turn (before after : Cursor)

/-- What should hold of a note: a step back goes to the first token of the same statement, and a
turn passes a token at least. -/
def Note.Sound : Note → Prop
  | .at c => c.Inside
  | .back c => c.Inside ∧ c.place = c.start
  | .turn c c' => c.Inside ∧ c'.Inside ∧ c'.tokens = c.tokens ∧ c.place < c'.place

/-! ### Walks -/

/-- How a walk ends. -/
inductive Ending (ε α : Type) where
  | done (a : α) (c : Cursor)
  | fault (e : ε)
  /-- A token that is not there was looked at, a number went below zero, or a loop did not end. -/
  | crash

/-- The notes of a walk and how it ended. -/
structure Trip (ε α : Type) where
  notes : List Note
  ending : Ending ε α

/-- Reading with a cursor. -/
def Walk (ε α : Type) := Cursor → Trip ε α

/-- A walk that goes on after another. -/
def Trip.andThen {ε α β : Type} (x : Trip ε α) (f : α → Walk ε β) : Trip ε β :=
  match x.ending with
  | .done a c => ⟨x.notes ++ (f a c).notes, (f a c).ending⟩
  | .fault e => ⟨x.notes, .fault e⟩
  | .crash => ⟨x.notes, .crash⟩

instance {ε : Type} : Monad (Walk ε) where
  pure a := fun c => ⟨[], .done a c⟩
  bind w f := fun c => (w c).andThen f

namespace Walk

variable {ε ε' α : Type}

/-- Gives up. -/
def fault (e : ε) : Walk ε α := fun _ => ⟨[], .fault e⟩

/-- Does what the token operations must never do. -/
def crash : Walk ε α := fun _ => ⟨[], .crash⟩

/-- The cursor. -/
def here : Walk ε Cursor := fun c => ⟨[.at c], .done c c⟩

/-- The token at a place, which is not checked. -/
def tokenAt (place : Nat) : Walk ε Token := fun c =>
  match c.tokens[place]? with
  | some t => ⟨[.at c], .done t c⟩
  | none => ⟨[.at c], .crash⟩

/-- The token at the cursor. -/
def peek : Walk ε Token := do tokenAt (← here).place

/-- The token before the cursor. -/
def previous : Walk ε Token := do
  match (← here).place with
  | 0 => crash
  | place + 1 => tokenAt place

/-- Moves on by one token. -/
def forward : Walk ε Unit := fun c =>
  let c' := { c with place := c.place + 1 }
  ⟨[.at c'], .done () c'⟩

/-- Moves back by one token. -/
def stepBack : Walk ε Unit := fun c =>
  match c.place with
  | 0 => ⟨[.at c], .crash⟩
  | place + 1 =>
    let c' := { c with place := place }
    ⟨[.back c'], .done () c'⟩

/-- The next token is the first one of a statement. -/
def begin : Walk ε Unit := fun c =>
  let c' := { c with start := c.place }
  ⟨[.at c'], .done () c'⟩

/-- Whether the cursor is at the end of the text. -/
def isAtEnd : Walk ε Bool := do return (← peek).kind = .finish

/-- Whether the token at the cursor has a kind. -/
def check (kind : TokenKind) : Walk ε Bool := do
  if ← isAtEnd then return false
  else return (← peek).kind = kind

/-- Moves on, but not past the end of the text, and gives the token before the cursor. -/
def advance : Walk ε Token := do
  if ← isAtEnd then previous
  else
    forward
    previous

/-- Moves on, but not past the end of the text, and gives the token that was at the cursor. -/
def nextToken : Walk ε Token := do
  let t ← peek
  let _ ← advance
  return t

/-- Moves on if the token has a kind, and says whether it did. -/
def matchOne (kind : TokenKind) : Walk ε Bool := do
  if ← check kind then
    let _ ← advance
    return true
  else
    return false

/-- Moves on if the token has one of some kinds, and says whether it did. -/
def matchEither : List TokenKind → Walk ε Bool
  | [] => return false
  | kind :: kinds => do
    if ← matchOne kind then return true
    else matchEither kinds

/-- Whether the cursor is at the end of a statement. -/
def atStatementEnd : Walk ε Bool := do
  if ← isAtEnd then return true
  else check .newline

/-- Looks for the closing parenthesis among the tokens from a place on, inside `depth` open ones. -/
def closingPlaceFrom : Nat → Nat → List Token → Walk ε (Option Nat)
  | _, _, [] => return none
  | depth, place, t :: ts =>
    match t.kind with
    | .leftParen => closingPlaceFrom (depth + 1) (place + 1) ts
    | .rightParen =>
      match depth with
      | 0 => crash
      | 1 => return some place
      | d + 2 => closingPlaceFrom (d + 1) (place + 1) ts
    | .newline => return none
    | .finish => return none
    | _ => closingPlaceFrom depth (place + 1) ts

/-- The place of the parenthesis that closes the one at the cursor, if it is on the same line. -/
def closingPlace : Walk ε (Option Nat) := do
  let c ← here
  closingPlaceFrom 0 c.place (c.tokens.drop c.place)

/-- The kind of the token after that parenthesis. -/
def kindAfterClosing : Walk ε (Option TokenKind) := do
  match ← closingPlace with
  | none => return none
  | some place =>
    let t ← tokenAt (place + 1)
    return some t.kind

/-- A walk whose faults are changed. -/
def mapFault (f : ε → ε') (w : Walk ε α) : Walk ε' α := fun c =>
  match (w c).ending with
  | .done a c' => ⟨(w c).notes, .done a c'⟩
  | .fault e => ⟨(w c).notes, .fault (f e)⟩
  | .crash => ⟨(w c).notes, .crash⟩

end Walk

/-! ### Lists and chains -/

/-- Reading a part of a line with a cursor. -/
abbrev LineWalk (α : Type) := Walk SyntaxFault α

namespace Walk

/-- Gives up at the token at the cursor. -/
def faultHere {α : Type} (f : SyntaxFault) : LineWalk α := do
  let _ ← peek
  fault f

/-- Moves on past a token that has to have a kind. -/
def consume (kind : TokenKind) (what : Expectation) : LineWalk Token := do
  if ← check kind then advance
  else faultHere (.expected what)

/-- Moves on past a name. -/
def consumeName (what : Expectation) : LineWalk String := do
  let t ← consume .name what
  return t.lexeme

/-- Moves on past the end of a statement. -/
def endOfStatement : LineWalk Unit := do
  if ← isAtEnd then return ()
  else if ← matchOne .newline then return ()
  else
    let t ← peek
    faultHere (.trailing t.describe)

/-- Moves on past an operator, one of some kinds. -/
def signOf (kinds : List TokenKind) (op : TokenKind → Operator) : LineWalk (Option Operator) := do
  if ← matchEither kinds then
    let t ← previous
    return some (op t.kind)
  else
    return none

/-- Moves on past the only operator of a level. -/
def onlySign (kind : TokenKind) (op : Operator) : LineWalk (Option Operator) := do
  if ← matchOne kind then return some op
  else return none

/-- Further operands after `left`. The number bounds the turns of the loop. -/
def chainFrom (operand : LineWalk Node) (sign : LineWalk (Option Operator)) :
    Nat → Node → LineWalk Node
  | 0, _ => crash
  | fuel + 1, left => do
    match ← sign with
    | none => return left
    | some op =>
      let right ← operand
      chainFrom operand sign fuel (.operation op [left, right])

/-- Operands joined by operators. No more turns are allowed than there are tokens left. -/
def chain (operand : LineWalk Node) (sign : LineWalk (Option Operator)) : LineWalk Node := do
  let left ← operand
  let c ← here
  chainFrom operand sign (c.tokens.length - c.place) left

/-- One or more items between commas, at most `limit`. -/
def commaItems {α : Type} (item : LineWalk α) (tooMany : SyntaxFault) : Nat → LineWalk (List α)
  | 0 => faultHere tooMany
  | limit + 1 => do
    let a ← item
    if ← matchOne .comma then
      let as ← commaItems item tooMany limit
      return a :: as
    else
      return [a]

/-- Expressions between commas. -/
def arguments (expression : LineWalk Node) : LineWalk (List Node) :=
  commaItems expression .tooManyArguments Rule.itemLimit

/-- Expressions between commas, none or more, and the closing token. -/
def enclosed (expression : LineWalk Node) (closing : TokenKind) (what : Expectation) :
    LineWalk (List Node) := do
  let items ← if ← check closing then pure [] else arguments expression
  let _ ← consume closing what
  return items

end Walk

/-! ### Expressions -/

/-- The rules that can stand inside others, as walks. -/
structure LevelWalks where
  expression : LineWalk Node
  negation : LineWalk Node
  unary : LineWalk Node

namespace LevelWalks

open Walk

/-- No room is left. -/
def floor : LevelWalks := ⟨faultHere .tooDeep, faultHere .tooDeep, faultHere .tooDeep⟩

/-- The conditional expression after its `IF`. -/
def conditional (inner : LevelWalks) : LineWalk Node := do
  let guard ← inner.expression
  let _ ← consume (.word .thenWord) .chooseThen
  let taken ← inner.expression
  let _ ← consume (.word .elseWord) .chooseElse
  let other ← inner.expression
  return .operation .choose [guard, taken, other]

/-- A name, or a call if a parenthesis follows. -/
def named (inner : LevelWalks) (name : String) : LineWalk Node := do
  if ← matchOne .leftParen then
    let args ← enclosed inner.expression .rightParen .argumentsClose
    return .call name args
  else
    return .ofName name

/-- An expression in parentheses, after the opening one. -/
def group (inner : LevelWalks) : LineWalk Node := do
  let e ← inner.expression
  let _ ← consume .rightParen .groupClose
  return e

/-- The elements of an array, after the opening brace. -/
def elements (inner : LevelWalks) : LineWalk Node := do
  let es ← enclosed inner.expression .rightBrace .elementsClose
  return .array es

/-- An expression that needs no operator. -/
def primary (inner : LevelWalks) : LineWalk Node := do
  let t ← nextToken
  match t.kind with
  | .integer => return .literal t.value
  | .decimal => return .literal t.value
  | .text => return .literal t.value
  | .name => inner.named t.lexeme
  | .leftParen => inner.group
  | .leftBrace => inner.elements
  | .word .ifWord => inner.conditional
  | _ => fault (.noExpression t.describe)

/-- A minus sign before an operand, or an operand. -/
def unaryWalk (inner : LevelWalks) : LineWalk Node := do
  if ← matchOne .minus then
    let e ← inner.unary
    return .operation .negate [e]
  else
    inner.primary

/-- Powers. -/
def powerWalk (inner : LevelWalks) : LineWalk Node := chain inner.unaryWalk (onlySign .caret .power)

/-- Products. -/
def factorWalk (inner : LevelWalks) : LineWalk Node :=
  chain inner.powerWalk <| signOf [.star, .slash, .backslash, .word .modWord] fun
    | .star => .times
    | .slash => .divide
    | .backslash => .floorDivide
    | _ => .modulo

/-- Sums. -/
def termWalk (inner : LevelWalks) : LineWalk Node :=
  chain inner.factorWalk <| signOf [.plus, .minus] fun
    | .plus => .plus
    | _ => .minus

/-- Conversions. -/
def conversionWalk (inner : LevelWalks) : LineWalk Node :=
  chain inner.termWalk (onlySign (.word .asWord) .convert)

/-- Comparisons. -/
def comparisonWalk (inner : LevelWalks) : LineWalk Node :=
  chain inner.conversionWalk <|
    signOf [.equal, .notEqual, .greater, .greaterEqual, .less, .lessEqual] fun
    | .equal => .equal
    | .notEqual => .notEqual
    | .greater => .greater
    | .greaterEqual => .greaterEqual
    | .less => .less
    | _ => .lessEqual

/-- `NOT` before an operand, or a comparison. -/
def negationWalk (inner : LevelWalks) : LineWalk Node := do
  if ← matchOne (.word .notWord) then
    let e ← inner.negation
    return .operation .not [e]
  else
    inner.comparisonWalk

/-- A whole expression. -/
def logicWalk (inner : LevelWalks) : LineWalk Node :=
  chain inner.negationWalk <| signOf [.word .andWord, .word .orWord] fun
    | .word .andWord => .and
    | _ => .or

/-- The rules with one more level of room. -/
def above (inner : LevelWalks) : LevelWalks :=
  ⟨inner.logicWalk, inner.negationWalk, inner.unaryWalk⟩

/-- The rules with room for `room` levels. -/
def withRoom : Nat → LevelWalks
  | 0 => floor
  | room + 1 => (withRoom room).above

end LevelWalks

/-! ### Statements -/

namespace Walk

/-- An expression. -/
def expression : LineWalk Node := (LevelWalks.withRoom Level.nestingLimit).expression

/-- The value of an assignment to a name. -/
def assignment (name : String) : LineWalk Statement := do
  let value ← expression
  endOfStatement
  return .simple (.operation .assign [.ofName name, value])

/-- `LET`. -/
def letStatement : LineWalk Statement := do
  let name ← consumeName .letName
  let _ ← consume .equal .letEqual
  assignment name

/-- The size of a declared array, if there is one. -/
def declaredSize : LineWalk (List Node) := do
  if ← matchOne .leftParen then
    let size ← expression
    let _ ← consume .rightParen .dimSizeClose
    return [size]
  else
    return []

/-- `DIM`. -/
def dimStatement : LineWalk Statement := do
  let name ← consumeName .dimName
  let size ← declaredSize
  let _ ← consume (.word .asWord) .dimAs
  let type ← consumeName .dimType
  endOfStatement
  return .simple (.operation .declare ([.ofName name, .ofName type] ++ size))

/-- A condition and its `THEN`. -/
def condition (what : Expectation) (make : Node → Statement) : LineWalk Statement := do
  let guard ← expression
  let _ ← consume (.word .thenWord) what
  endOfStatement
  return make guard

/-- The end of the statement, and what it says. -/
def ends (s : Statement) : LineWalk Statement := do
  endOfStatement
  return s

/-- `END` and the word of a construct. -/
def endStatement : LineWalk Statement := do
  let t ← nextToken
  match Rule.closerOf t.kind with
  | none => fault (.expected .endOfWhat)
  | some closer => ends (.close closer)

/-- `WHILE`. -/
def whileStatement : LineWalk Statement := do
  let guard ← expression
  endOfStatement
  return .openWhile guard

/-- The guard for another turn after `UNTIL`; without the word there always is another turn. -/
def untilGuard : LineWalk Node := do
  if ← matchOne (.word .untilWord) then
    let e ← expression
    return .operation .not [e]
  else
    return .literal (.bool true)

/-- The guard for another turn. -/
def loopGuard : LineWalk Node := do
  if ← matchOne (.word .whileWord) then expression else untilGuard

/-- `LOOP` with the guard for another turn. -/
def loopStatement : LineWalk Statement := do
  let guard ← loopGuard
  endOfStatement
  return .loop guard

/-- The step of a `FOR` loop; it is one if it is not given. -/
def stepOf : LineWalk Node := do
  if ← matchOne (.word .stepWord) then expression else return .literal (.int 1)

/-- `FOR`. -/
def forStatement : LineWalk Statement := do
  let counter ← consumeName .forName
  let _ ← consume .equal .forEqual
  let start ← expression
  let _ ← consume (.word .toWord) .forTo
  let limit ← expression
  let step ← stepOf
  endOfStatement
  return .openFor counter start limit step

/-- `NEXT` with the counter, if it is named. -/
def nextStatement : LineWalk Statement := do
  if ← check .name then
    let t ← advance
    ends (.next (some t.lexeme))
  else
    ends (.next none)

/-- Parameter names between commas, none of them one of `seen` and at most `limit`. -/
def parameterNames : Nat → List String → LineWalk (List String)
  | 0, _ => faultHere .tooManyParameters
  | limit + 1, seen => do
    let name ← consumeName .parameterName
    if seen.contains name then fault (.duplicateParameter name)
    else
      if ← matchOne .comma then
        let names ← parameterNames limit (name :: seen)
        return name :: names
      else
        return [name]

/-- Parameters after the opening parenthesis. -/
def parameters : LineWalk (List String) := do
  let names ← if ← check .rightParen then pure [] else parameterNames Rule.itemLimit []
  let _ ← consume .rightParen .parametersClose
  return names

/-- `SUB` or `FUNCTION`. -/
def closureStatement (kind : ClosureKind) : LineWalk Statement := do
  let name ← consumeName (.closureName kind.word)
  let params ← if ← matchOne .leftParen then parameters else pure []
  endOfStatement
  return .openClosure kind name params

/-- `DEFUN`: a function whose body returns one expression. -/
def defunStatement : LineWalk Statement := do
  let name ← consumeName .defunName
  let _ ← consume .leftParen .defunOpen
  let params ← parameters
  let _ ← consume .equal .defunEqual
  let value ← expression
  endOfStatement
  return .simple (.construct (.function name params) [] [.plain .returned [value]])

/-- `RETURN` with its value, if there is one. -/
def returnStatement : LineWalk Statement := do
  if ← atStatementEnd then ends (.giveBack none)
  else
    let value ← expression
    endOfStatement
    return .giveBack (some value)

/-- `EXIT` or `CONTINUE` and the kind of loop. -/
def jumpStatement (j : Jump) : LineWalk Statement := do
  let t ← nextToken
  match Rule.loopKindOf t.kind with
  | none => fault (.expected (.loopKind j.word))
  | some kind => ends (.jump j kind)

/-- `USE`. -/
def useStatement : LineWalk Statement := do
  let name ← consumeName .moduleName
  endOfStatement
  return .use name

/-- A line that is an expression. -/
def expressionStatement : LineWalk Statement := do
  let e ← expression
  endOfStatement
  return .simple e

/-- An assignment to an element. The opening parenthesis is there. -/
def elementAssignment (name : String) : LineWalk Statement := do
  let _ ← matchOne .leftParen
  let index ← expression
  let _ ← consume .rightParen .elementClose
  let _ ← consume .equal .elementEqual
  let value ← expression
  endOfStatement
  return .simple (.operation .assignElement [.ofName name, index, value])

/-- A call with parentheses. The opening one is there. -/
def callStatement (name : String) : LineWalk Statement := do
  let _ ← advance
  let args ← enclosed expression .rightParen .argumentsClose
  endOfStatement
  return .simple (.call name args)

/-- A call without parentheses. -/
def bareCall (name : String) : LineWalk Statement := do
  let args ← arguments expression
  endOfStatement
  return .simple (.call name args)

/-- After a name: a call without arguments or without parentheses, or an expression that
starts with the name. -/
def nameStatement (name : String) : LineWalk Statement := do
  if ← atStatementEnd then ends (.simple (.call name []))
  else
    let t ← peek
    if Rule.startsExpression t.kind then bareCall name
    else
      stepBack
      expressionStatement

/-- A statement that starts with a name, after the name. -/
def namedStatement (name : String) : LineWalk Statement := do
  if ← matchOne .equal then assignment name
  else if ← check .leftParen then
    match ← kindAfterClosing with
    | none => nameStatement name
    | some kind =>
      if kind = .equal then elementAssignment name
      else if kind.endsLine then callStatement name
      else nameStatement name
  else nameStatement name

/-- A statement. -/
def statement : LineWalk Statement := do
  let t ← advance
  match t.kind with
  | .name => namedStatement t.lexeme
  | .word .letWord => letStatement
  | .word .dimWord => dimStatement
  | .word .ifWord => condition .ifThen .openIf
  | .word .elseIfWord => condition .elseIfThen .elseIf
  | .word .elseWord => ends .otherwise
  | .word .endWord => endStatement
  | .word .whileWord => whileStatement
  | .word .wendWord => ends (.close .wend)
  | .word .doWord => ends .openDo
  | .word .loopWord => loopStatement
  | .word .forWord => forStatement
  | .word .nextWord => nextStatement
  | .word .subWord => closureStatement .subroutine
  | .word .functionWord => closureStatement .function
  | .word .defunWord => defunStatement
  | .word .returnWord => returnStatement
  | .word .exitWord => jumpStatement .exit
  | .word .continueWord => jumpStatement .skip
  | .word .useWord => useStatement
  | _ => do
    stepBack
    expressionStatement

end Walk

/-! ### Texts and modules -/

/-- Reading statements with a cursor. A fault comes with the progress that was made before it. -/
abbrev TextWalk := Walk (Progress × Error) Progress

namespace Walk

/-- How a `USE` of a name on a line is read. -/
abbrev Uses := String → Nat → Progress → TextWalk

/-- Reads a statement and places it. A fault is put on the line of its first token. -/
def placed (use : Uses) (p : Progress) : TextWalk := do
  begin
  let t ← peek
  let s ← mapFault (fun f => (p, Error.grammatical t.line f)) statement
  match s with
  | .use name => use name t.line p
  | s =>
    match p.draft.place t.line s with
    | .error f => fault (p, .grammatical t.line f)
    | .ok r => return p.advance r

/-- A turn of the loop over statements: an empty line, or a statement. -/
def turn (use : Uses) (p : Progress) : TextWalk := do
  if ← matchOne .newline then return p
  else placed use p

/-- A walk with a note of where it started and ended. -/
def noted (w : TextWalk) : TextWalk := fun c =>
  match (w c).ending with
  | .done p c' => ⟨(w c).notes ++ [.turn c c'], .done p c'⟩
  | _ => w c

/-- The loop over statements. The number bounds its turns. -/
def statements (use : Uses) : Nat → Progress → TextWalk
  | 0, _ => crash
  | fuel + 1, p => do
    if ← isAtEnd then return p
    else
      let q ← noted (turn use p)
      statements use fuel q

/-- Reads a text with tokens and a place of its own. Those from before are put back when it ends. As
many turns are allowed as the text has tokens. -/
def text (use : Uses) (first : Nat) (source : String) (p : Progress) : TextWalk := fun c =>
  match (scan first source).error with
  | some e => ⟨[], .fault (p, .lexical e)⟩
  | none =>
    let x := statements use (scan first source).tokens.length p ⟨(scan first source).tokens, 0, 0⟩
    match x.ending with
    | .done q _ => ⟨x.notes, .done q c⟩
    | .fault e => ⟨x.notes, .fault e⟩
    | .crash => ⟨x.notes, .crash⟩

/-- A walk with a note of the cursor when it is back where it started, whether
it has failed or not. -/
def returning (w : TextWalk) : TextWalk := fun c => ⟨(w c).notes ++ [.at c], (w c).ending⟩

/-- Reads a `USE` inside the modules `within`. The number bounds the modules inside each other. -/
def useModule (catalog : Catalog) : Nat → List String → Uses
  | 0, _ => fun name line p => fault (p, .grammatical line (.circularUse name))
  | depth + 1, within => fun name line p =>
    if within.contains name then fault (p, .grammatical line (.circularUse name))
    else
      match catalog.lookup name with
      | some (.error f) => fault (p, .disk f)
      | some (.ok (.source _ source)) =>
        returning (text (useModule catalog depth (name :: within)) 1 source p)
      | found =>
        match Bundle.ofName? name, found with
        | some _, _ => return p.add (.plain (.inclusion (.library name)) [])
        | none, some (.ok (.script path)) => return p.add (.plain (.inclusion (.script path)) [])
        | none, _ => fault (p, .moduleNotFound name)

/-- Reads one more piece of the program. Between pieces there are no tokens. -/
def parse (catalog : Catalog) (source : String) (r : Reader) :
    Trip Empty (Reader × Except Error (List Node)) :=
  let next := r.line + max 1 (Text.lineCount source)
  let rest : Cursor := ⟨[], 0, 0⟩
  let x := text (useModule catalog (catalog.length + 1) []) r.line source ⟨r.draft, #[]⟩ rest
  match x.ending with
  | .done p c => ⟨x.notes, .done (⟨p.draft, next⟩, .ok p.handed.toList) c⟩
  | .fault (p, e) => ⟨x.notes, .done (⟨p.draft, next⟩, .error e) rest⟩
  | .crash => ⟨x.notes, .crash⟩

end Walk
end LineBasic
