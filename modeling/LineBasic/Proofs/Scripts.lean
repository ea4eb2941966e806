import LineBasic.Grammar.Statement

/-!
# Rules of the grammar as scripts

A rule looks at the tokens that are left of its line, takes them one by one, fails, or goes one
level deeper into an expression. A `Script` says in which order. It does not say what holds the
tokens or how levels are counted.

* `Script` : what a rule does; `Script.run` : the rule that follows a script, given
  the rules one level deeper.
* `Scripted` : a rule together with a script that it follows, at some levels; closed under `bind`.
* `Inner.scripted` : the scripts of the three rules that nest, the same at all levels.
* `Scripted.statement` : the script of the rule for a line.
-/

namespace LineBasic

/-- The rules that can stand inside others. -/
inductive Inner where
  | expression | negation | unary
  deriving DecidableEq, Repr

/-- One of the rules of a level. -/
def Level.rule (l : Level) : Inner → Rule Node
  | .expression => l.expression
  | .negation => l.negation
  | .unary => l.unary

/-- The tokens after the first one. The end of a line is not passed. -/
def Tokens.advanced : List Token → List Token
  | [] => []
  | t :: ts => if t.kind.endsLine then t :: ts else ts

/-- What a rule does. -/
inductive Script (α : Type) where
  | done (a : α)
  | fail (f : SyntaxFault)
  /-- The rest of the line is looked at. -/
  | look (next : List Token → Script α)
  /-- The next token is passed. -/
  | take (next : Script α)
  /-- A rule is followed one level deeper. -/
  | nest (rule : Inner) (next : Node → Script α)

namespace Script

variable {α β : Type}

/-- One script after another. -/
def bind : Script α → (α → Script β) → Script β
  | done a, f => f a
  | fail e, _ => fail e
  | look next, f => look fun ts => (next ts).bind f
  | take next, f => take (next.bind f)
  | nest rule next, f => nest rule fun n => (next n).bind f

/-- The rule that follows a script. -/
def run (inner : Level) : Script α → Rule α
  | done a => fun ts => .ok (a, ts)
  | fail f => fun _ => .error f
  | look next => fun ts => (next ts).run inner ts
  | take next => fun ts => next.run inner (Tokens.advanced ts)
  | nest rule next => fun ts =>
    match inner.rule rule ts with
    | .ok (n, rest) => (next n).run inner rest
    | .error f => .error f

theorem run_bind (inner : Level) (p : Script α) (f : α → Script β) (ts : List Token) :
    (p.bind f).run inner ts =
      match p.run inner ts with
      | .ok (a, rest) => (f a).run inner rest
      | .error e => .error e := by
  induction p generalizing ts with
  | done a => rfl
  | fail e => rfl
  | look next ih => exact ih ts ts
  | take next ih => exact ih (Tokens.advanced ts)
  | nest rule next ih =>
    simp only [bind, run]
    obtain e | ⟨n, rest⟩ := inner.rule rule ts
    · rfl
    · exact ih n rest

theorem run_look (inner : Level) (next : List Token → Script α) (ts : List Token) :
    (look next).run inner ts = (next ts).run inner ts := rfl

/-- A token that does not end the line is passed. -/
theorem run_take (inner : Level) (p : Script α) {t : Token} (ht : t.kind.endsLine = false)
    (ts : List Token) : (take p).run inner (t :: ts) = p.run inner ts := by
  simp [run, Tokens.advanced, ht]

end Script

/-- Rules for some levels, and one script that all of them follow. -/
structure Scripted {ι α : Type} (level : ι → Level) (r : ι → Rule α) where
  script : Script α
  runs : ∀ i, script.run (level i) = r i

namespace Scripted

variable {ι α β : Type} {level : ι → Level} {r : ι → Rule α}

section Combinators

variable {s : ι → α → Rule β}

def pure (a : α) : Scripted level fun _ => (Pure.pure a : Rule α) := ⟨.done a, fun _ => rfl⟩

def fail (f : SyntaxFault) : Scripted level fun _ => (Rule.fail f : Rule α) :=
  ⟨.fail f, fun _ => rfl⟩

def inner (rule : Inner) : Scripted level fun i => (level i).rule rule where
  script := .nest rule .done
  runs i := by
    funext ts
    simp only [Script.run]
    cases (level i).rule rule ts <;> rfl

/-- One rule after another. -/
def bind (p : Scripted level r) (q : ∀ a, Scripted level fun i => s i a) :
    Scripted level fun i => r i >>= s i where
  script := p.script.bind fun a => (q a).script
  runs i := by
    funext ts
    rw [Script.run_bind, p.runs]
    show _ = (r i ts >>= fun x => s i x.1 x.2)
    obtain e | ⟨a, rest⟩ := r i ts
    · rfl
    · exact congrFun ((q a).runs i) rest

/-- One of two rules. -/
def ite {r' : ι → Rule α} (b : Bool) (p : Scripted level r) (q : Scripted level r') :
    Scripted level fun i => if b then r i else r' i :=
  match b with
  | true => p
  | false => q

/-- A rule whose result is changed by a function. -/
def map (f : α → β) (p : Scripted level r) :
    Scripted level fun i ts => (r i ts).map fun x => (f x.1, x.2) where
  script := p.script.bind fun a => .done (f a)
  runs i := by
    funext ts
    rw [Script.run_bind, p.runs]
    cases r i ts <;> rfl

/-- A rule that is followed after a token. -/
theorem run_take (p : Scripted level r) (i : ι) {t : Token} (ht : t.kind.endsLine = false)
    (ts : List Token) : (Script.take p.script).run (level i) (t :: ts) = r i ts := by
  rw [Script.run_take _ _ ht, p.runs]

theorem run_eq (p : Scripted level r) (i : ι) (ts : List Token) :
    p.script.run (level i) ts = r i ts :=
  congrFun (p.runs i) ts

end Combinators

/-! ### Single tokens -/

def sees (kind : TokenKind) : Scripted level fun _ => Rule.sees kind :=
  ⟨.look fun ts => .done (Rule.peekKind ts = kind), fun _ => rfl⟩

def tokens : Scripted level fun _ => (get : Rule (List Token)) :=
  ⟨.look fun ts => .done ts, fun _ => rfl⟩

def accept (kind : TokenKind) (hk : kind.endsLine = false) :
    Scripted level fun _ => Rule.accept kind where
  script := .look fun ts => if Rule.peekKind ts = kind then .take (.done true) else .done false
  runs i := by
    funext ts
    cases ts with
    | nil =>
      have hne : TokenKind.finish ≠ kind := by
        rintro rfl
        cases hk
      simp [Script.run, Rule.peekKind, hne, Rule.accept]
    | cons t ts =>
      by_cases ht : t.kind = kind
      · simp [Script.run, Rule.peekKind, Rule.accept, Tokens.advanced, ht, hk]
      · simp [Script.run, Rule.peekKind, Rule.accept, ht]

def expect (kind : TokenKind) (what : Expectation) (hk : kind.endsLine = false) :
    Scripted level fun _ => Rule.expect kind what where
  script := .look fun ts =>
    match ts with
    | [] => .fail (.expected what)
    | t :: _ => if t.kind = kind then .take (.done t) else .fail (.expected what)
  runs i := by
    funext ts
    cases ts with
    | nil => rfl
    | cons t ts =>
      by_cases ht : t.kind = kind
      · simp [Script.run, Rule.expect, Tokens.advanced, ht, hk]
      · simp [Script.run, Rule.expect, ht]

def expectName (what : Expectation) : Scripted level fun _ => Rule.expectName what :=
  (expect .name what rfl).bind fun t => pure t.lexeme

def lineEnd : Scripted level fun _ => Rule.lineEnd where
  script := .look fun ts =>
    if (Rule.peekKind ts).endsLine then .done () else .fail (.trailing (Rule.peekText ts))
  runs i := by
    funext ts
    simp only [Script.run, Rule.lineEnd]
    split <;> rfl

/-! ### Lists and chains -/

def commaItems {item : ι → Rule α} (p : Scripted level item) (tooMany : SyntaxFault) :
    ∀ limit : Nat, Scripted level fun i => Rule.commaItems (item i) tooMany limit
  | 0 => fail tooMany
  | limit + 1 => p.bind fun a => (accept .comma rfl).bind fun more =>
      ite more ((commaItems p tooMany limit).bind fun as => pure (a :: as)) (pure [a])

def arguments {e : ι → Rule Node} (p : Scripted level e) :
    Scripted level fun i => Rule.arguments (e i) :=
  commaItems p .tooManyArguments Rule.itemLimit

/-- The items of a list, after its closing token. -/
def closed {α : Type} (a : α) (closing : TokenKind) (what : Expectation)
    (hc : closing.endsLine = false) :
    Scripted level fun _ => (do
      let _ ← Rule.expect closing what
      return a : Rule α) :=
  (expect closing what hc).bind fun _ => pure a

def enclosed {e : ι → Rule Node} (p : Scripted level e) (closing : TokenKind) (what : Expectation)
    (hc : closing.endsLine = false) : Scripted level fun i => Rule.enclosed (e i) closing what :=
  (sees closing).bind fun none =>
    ite none ((pure []).bind fun items => closed items closing what hc)
      ((arguments p).bind fun items => closed items closing what hc)

def leftChainFrom {operand : ι → Rule Node} (p : Scripted level operand)
    (operator? : TokenKind → Option Operator) (hnewline : operator? .newline = none)
    (hfinish : operator? .finish = none) :
    ∀ (fuel : Nat) (left : Node),
      Scripted level fun i => Rule.leftChainFrom (operand i) operator? fuel left
  | 0, left => pure left
  | fuel + 1, left =>
    { script := .look fun ts =>
        match ts with
        | [] => .done left
        | t :: _ =>
          match operator? t.kind with
          | none => .done left
          | some op => .take (p.script.bind fun right =>
              (leftChainFrom p operator? hnewline hfinish fuel
                (.operation op [left, right])).script)
      runs := fun i => by
        funext ts
        cases ts with
        | nil => rfl
        | cons t ts =>
          simp only [Script.run, Rule.leftChainFrom]
          cases hop : operator? t.kind with
          | none => rfl
          | some op =>
            have ht : t.kind.endsLine = false := by
              cases hk : t.kind <;> first | rfl | simp [hk, hnewline, hfinish] at hop
            rw [Script.run_take _ _ ht, Script.run_bind, p.run_eq]
            obtain f | ⟨right, rest⟩ := operand i ts
            · rfl
            · exact (leftChainFrom p operator? hnewline hfinish fuel _).run_eq i rest }

def leftChain {operand : ι → Rule Node} (p : Scripted level operand)
    (operator? : TokenKind → Option Operator) (hnewline : operator? .newline = none)
    (hfinish : operator? .finish = none) :
    Scripted level fun i => Rule.leftChain (operand i) operator? :=
  p.bind fun left => tokens.bind fun ts => leftChainFrom p operator? hnewline hfinish ts.length left

/-! ### Expressions

From here on there is a script for each rule, and its type names the rule. -/

/-- A whole expression, one level deeper. -/
def expression : Scripted level fun i => (level i).expression := inner .expression

def conditional : Scripted level fun i => (level i).conditional :=
  expression.bind fun _ => (expect (.word .thenWord) .chooseThen rfl).bind fun _ =>
    expression.bind fun _ => (expect (.word .elseWord) .chooseElse rfl).bind fun _ =>
      expression.bind fun _ => pure _

def named (name : String) : Scripted level fun i => (level i).named name :=
  (accept .leftParen rfl).bind fun called =>
    ite called ((enclosed expression .rightParen .argumentsClose rfl).bind fun _ => pure _) (pure _)

def group : Scripted level fun i => (level i).group :=
  expression.bind fun e => closed e .rightParen .groupClose rfl

def elements : Scripted level fun i => (level i).elements :=
  (enclosed expression .rightBrace .elementsClose rfl).bind fun _ => pure _

def primary : Scripted level fun i => (level i).primary where
  script := .look fun ts =>
    match ts with
    | [] => .fail (.noExpression (Rule.peekText []))
    | t :: _ =>
      match t.kind with
      | .integer => .take (.done (.literal t.value))
      | .decimal => .take (.done (.literal t.value))
      | .text => .take (.done (.literal t.value))
      | .name => .take (@named ι level t.lexeme).script
      | .leftParen => .take (@group ι level).script
      | .leftBrace => .take (@elements ι level).script
      | .word .ifWord => .take (@conditional ι level).script
      | _ => .fail (.noExpression t.describe)
  runs i := by
    funext ts
    cases ts with
    | nil => rfl
    | cons t ts =>
      obtain ⟨kind, lexeme, line, column, value⟩ := t
      cases kind
      case name => exact (named lexeme).run_take i rfl ts
      case leftParen => exact group.run_take i rfl ts
      case leftBrace => exact elements.run_take i rfl ts
      case word w =>
        cases w
        case ifWord => exact conditional.run_take i rfl ts
        all_goals rfl
      all_goals rfl

def unary : Scripted level fun i => (level i).unaryRule :=
  (accept .minus rfl).bind fun signed => ite signed ((inner .unary).bind fun _ => pure _) primary

def power : Scripted level fun i => (level i).powerRule :=
  leftChain unary Level.powerSign? rfl rfl

def factor : Scripted level fun i => (level i).factorRule :=
  leftChain power Level.factorSign? rfl rfl

def term : Scripted level fun i => (level i).termRule :=
  leftChain factor Level.termSign? rfl rfl

def conversion : Scripted level fun i => (level i).conversionRule :=
  leftChain term Level.conversionSign? rfl rfl

def comparison : Scripted level fun i => (level i).comparisonRule :=
  leftChain conversion Level.comparisonSign? rfl rfl

def negation : Scripted level fun i => (level i).negationRule :=
  (accept (.word .notWord) rfl).bind fun negated =>
    ite negated ((inner .negation).bind fun _ => pure _) comparison

def logic : Scripted level fun i => (level i).logicRule :=
  leftChain negation Level.logicSign? rfl rfl

end Scripted

/-- The script of a rule that nests, at all levels at once. -/
def Inner.scripted : ∀ rule : Inner, Scripted id fun l => l.above.rule rule
  | expression => Scripted.logic
  | negation => Scripted.negation
  | unary => Scripted.unary

namespace Scripted

/-! ### Statements

Their expressions are at the outermost level. -/

/-- A rule of the outermost level, and a script that it follows. -/
abbrev Outermost {α : Type} (r : Rule α) := Scripted (fun _ : Unit => Level.outermost) fun _ => r

def assignment (name : String) : Outermost (Rule.assignment name) :=
  expression.bind fun _ => lineEnd.bind fun _ => pure _

def letStatement : Outermost Rule.letStatement :=
  (expectName .letName).bind fun name => (expect .equal .letEqual rfl).bind fun _ => assignment name

def declaredSize : Outermost Rule.declaredSize :=
  (accept .leftParen rfl).bind fun sized =>
    ite sized (expression.bind fun size => closed [size] .rightParen .dimSizeClose rfl) (pure _)

def dimStatement : Outermost Rule.dimStatement :=
  (expectName .dimName).bind fun _ => declaredSize.bind fun _ =>
    (expect (.word .asWord) .dimAs rfl).bind fun _ => (expectName .dimType).bind fun _ =>
      lineEnd.bind fun _ => pure _

def condition (what : Expectation) : Outermost (Rule.condition what) :=
  expression.bind fun _ => (expect (.word .thenWord) what rfl).bind fun _ =>
    lineEnd.bind fun _ => pure _

/-- The end of the line, and what the line says. -/
def ends (s : Statement) : Outermost fun ts => (Rule.lineEnd ts).map fun r => (s, r.2) :=
  lineEnd.map fun _ => s

def endStatement : Outermost Rule.endStatement where
  script := .look fun ts =>
    match ts with
    | [] => .fail (.expected .endOfWhat)
    | t :: _ =>
      match Rule.closerOf t.kind with
      | none => .fail (.expected .endOfWhat)
      | some closer => .take (ends (.close closer)).script
  runs i := by
    funext ts
    cases ts with
    | nil => rfl
    | cons t ts =>
      simp only [Script.run, Rule.endStatement]
      cases hcloser : Rule.closerOf t.kind with
      | none => rfl
      | some closer =>
        refine (ends (.close closer)).run_take i ?_ ts
        cases hk : t.kind <;> simp_all [Rule.closerOf, TokenKind.endsLine]

def untilGuard : Outermost Rule.untilGuard :=
  (accept (.word .untilWord) rfl).bind fun stops =>
    ite stops (expression.bind fun _ => pure _) (pure _)

def loopGuard : Outermost Rule.loopGuard :=
  (accept (.word .whileWord) rfl).bind fun again => ite again expression untilGuard

def loopStatement : Outermost Rule.loopStatement :=
  loopGuard.bind fun _ => lineEnd.bind fun _ => pure _

def stepOf : Outermost Rule.stepOf :=
  (accept (.word .stepWord) rfl).bind fun given => ite given expression (pure _)

def forStatement : Outermost Rule.forStatement :=
  (expectName .forName).bind fun _ => (expect .equal .forEqual rfl).bind fun _ =>
    expression.bind fun _ => (expect (.word .toWord) .forTo rfl).bind fun _ =>
      expression.bind fun _ => stepOf.bind fun _ => lineEnd.bind fun _ => pure _

def nextStatement : Outermost Rule.nextStatement where
  script := .look fun ts =>
    match ts with
    | [] => .done (.next none)
    | t :: _ =>
      if t.kind = .name then .take (ends (.next (some t.lexeme))).script
      else (ends (.next none)).script
  runs i := by
    funext ts
    cases ts with
    | nil => rfl
    | cons t ts =>
      by_cases hk : t.kind = .name
      · simp only [Script.run, Rule.nextStatement, hk, if_true]
        exact (ends (.next (some t.lexeme))).run_take i (by rw [hk]; rfl) ts
      · simp only [Script.run, Rule.nextStatement, hk, if_false]
        exact (ends (.next none)).run_eq i (t :: ts)

def parameterNames :
    ∀ (limit : Nat) (seen : List String), Outermost (Rule.parameterNames limit seen)
  | 0, _ => fail _
  | limit + 1, seen => (expectName .parameterName).bind fun name =>
      ite (seen.contains name) (fail _) ((accept .comma rfl).bind fun more =>
        ite more ((parameterNames limit (name :: seen)).bind fun _ => pure _) (pure _))

def parameters : Outermost Rule.parameters :=
  (sees .rightParen).bind fun none =>
    ite none ((pure []).bind fun names => closed names .rightParen .parametersClose rfl)
      ((parameterNames Rule.itemLimit []).bind fun names =>
        closed names .rightParen .parametersClose rfl)

/-- The end of the line, and the closure that it opens. -/
def opens (kind : ClosureKind) (name : String) (params : List String) :
    Outermost (do
      Rule.lineEnd
      return Statement.openClosure kind name params) :=
  lineEnd.bind fun _ => pure _

def closureStatement (kind : ClosureKind) : Outermost (Rule.closureStatement kind) :=
  (expectName (.closureName kind.word)).bind fun name => (accept .leftParen rfl).bind fun listed =>
    ite listed (parameters.bind fun params => opens kind name params)
      ((pure []).bind fun params => opens kind name params)

def defunStatement : Outermost Rule.defunStatement :=
  (expectName .defunName).bind fun _ => (expect .leftParen .defunOpen rfl).bind fun _ =>
    parameters.bind fun _ => (expect .equal .defunEqual rfl).bind fun _ =>
      expression.bind fun _ => lineEnd.bind fun _ => pure _

/-- The value of a return. -/
def returnValue : Outermost (do
    let value ← Rule.expression
    Rule.lineEnd
    return Statement.giveBack (some value)) :=
  expression.bind fun _ => lineEnd.bind fun _ => pure _

def returnStatement : Outermost Rule.returnStatement where
  script := .look fun ts =>
    if (Rule.peekKind ts).endsLine then .done (.giveBack none) else returnValue.script
  runs i := by
    funext ts
    simp only [Script.run, Rule.returnStatement]
    split
    · rfl
    · exact returnValue.run_eq i ts

def jumpStatement (j : Jump) : Outermost (Rule.jumpStatement j) where
  script := .look fun ts =>
    match ts with
    | [] => .fail (.expected (.loopKind j.word))
    | t :: _ =>
      match Rule.loopKindOf t.kind with
      | none => .fail (.expected (.loopKind j.word))
      | some kind => .take (ends (.jump j kind)).script
  runs i := by
    funext ts
    cases ts with
    | nil => rfl
    | cons t ts =>
      simp only [Script.run, Rule.jumpStatement]
      cases hkind : Rule.loopKindOf t.kind with
      | none => rfl
      | some kind =>
        refine (ends (.jump j kind)).run_take i ?_ ts
        cases hk : t.kind <;> simp_all [Rule.loopKindOf, TokenKind.endsLine]

def useStatement : Outermost Rule.useStatement :=
  (expectName .moduleName).bind fun _ => lineEnd.bind fun _ => pure _

def expressionStatement : Outermost Rule.expressionStatement :=
  expression.bind fun _ => lineEnd.bind fun _ => pure _

def whileStatement : Outermost (do
    let guard ← Rule.expression
    Rule.lineEnd
    return Statement.openWhile guard) :=
  expression.bind fun _ => lineEnd.bind fun _ => pure _

def elementAssignment (name : String) : Outermost (Rule.elementAssignment name) :=
  expression.bind fun _ => (expect .rightParen .elementClose rfl).bind fun _ =>
    (expect .equal .elementEqual rfl).bind fun _ => expression.bind fun _ =>
      lineEnd.bind fun _ => pure _

def callStatement (name : String) : Outermost (Rule.callStatement name) :=
  (enclosed expression .rightParen .argumentsClose rfl).bind fun _ => lineEnd.bind fun _ => pure _

def bareCall (name : String) : Outermost (Rule.bareCall name) :=
  (arguments expression).bind fun _ => lineEnd.bind fun _ => pure _

/-- The script of a line that starts with a name. The name itself is only passed when it is known
that the line is no expression. -/
def nameScript (name : Token) : Script Statement :=
  .look fun ts =>
    if (Rule.peekKind ts.tail).endsLine then .take (.done (.simple (.call name.lexeme [])))
    else if Rule.startsExpression (Rule.peekKind ts.tail) then .take (bareCall name.lexeme).script
    else expressionStatement.script

theorem run_nameScript {name : Token} (hname : name.kind.endsLine = false) (rest : List Token) :
    (nameScript name).run Level.outermost (name :: rest) = Rule.nameStatement name rest := by
  unfold nameScript Rule.nameStatement
  rw [Script.run_look, List.tail_cons]
  by_cases hend : (Rule.peekKind rest).endsLine = true
  · rw [if_pos hend, if_pos hend]
    exact Script.run_take _ _ hname rest
  · rw [if_neg hend, if_neg hend]
    by_cases hstart : Rule.startsExpression (Rule.peekKind rest) = true
    · rw [if_pos hstart, if_pos hstart]
      exact (bareCall name.lexeme).run_take () hname rest
    · rw [if_neg hstart, if_neg hstart]
      exact expressionStatement.run_eq () (name :: rest)

/-- The script of a line that starts with a name, told apart by what follows the name. -/
def namedScript (name : Token) : Script Statement :=
  .look fun ts =>
    match ts.tail with
    | [] => nameScript name
    | t :: more =>
      match t.kind with
      | .equal => .take (.take (assignment name.lexeme).script)
      | .leftParen =>
        match Rule.afterClosing 1 more with
        | none => nameScript name
        | some after =>
          if Rule.peekKind after = .equal then .take (.take (elementAssignment name.lexeme).script)
          else if (Rule.peekKind after).endsLine then .take
            (.take (callStatement name.lexeme).script)
          else nameScript name
      | _ => nameScript name

theorem run_namedScript {name : Token} (hname : name.kind.endsLine = false) (rest : List Token) :
    (namedScript name).run Level.outermost (name :: rest) = Rule.namedStatement name rest := by
  cases rest with
  | nil => exact run_nameScript hname []
  | cons t more =>
    obtain ⟨kind, lexeme, line, column, value⟩ := t
    cases kind
    case equal =>
      exact (Script.run_take _ _ hname _).trans ((assignment name.lexeme).run_take () rfl more)
    case leftParen =>
      simp only [namedScript, Script.run, List.tail_cons, Rule.namedStatement]
      cases Rule.afterClosing 1 more with
      | none => exact run_nameScript hname _
      | some after =>
        simp only
        split
        · exact (Script.run_take _ _ hname _).trans
            ((elementAssignment name.lexeme).run_take () rfl more)
        · split
          · exact (Script.run_take _ _ hname _).trans
              ((callStatement name.lexeme).run_take () rfl more)
          · exact run_nameScript hname _
    all_goals exact run_nameScript hname _

/-- The script of the rule for a line. -/
def statement : Outermost Rule.statement where
  script := .look fun ts =>
    match ts with
    | [] => .fail (.noExpression (Rule.peekText []))
    | t :: _ =>
      match t.kind with
      | .name => namedScript t
      | .word .letWord => .take letStatement.script
      | .word .dimWord => .take dimStatement.script
      | .word .ifWord => .take ((condition .ifThen).map Statement.openIf).script
      | .word .elseIfWord => .take ((condition .elseIfThen).map Statement.elseIf).script
      | .word .elseWord => .take (ends .otherwise).script
      | .word .endWord => .take endStatement.script
      | .word .whileWord => .take whileStatement.script
      | .word .wendWord => .take (ends (.close .wend)).script
      | .word .doWord => .take (ends .openDo).script
      | .word .loopWord => .take loopStatement.script
      | .word .forWord => .take forStatement.script
      | .word .nextWord => .take nextStatement.script
      | .word .subWord => .take (closureStatement .subroutine).script
      | .word .functionWord => .take (closureStatement .function).script
      | .word .defunWord => .take defunStatement.script
      | .word .returnWord => .take returnStatement.script
      | .word .exitWord => .take (jumpStatement .exit).script
      | .word .continueWord => .take (jumpStatement .skip).script
      | .word .useWord => .take useStatement.script
      | _ => expressionStatement.script
  runs i := by
    funext ts
    cases ts with
    | nil => rfl
    | cons t ts =>
      obtain ⟨kind, lexeme, line, column, value⟩ := t
      cases kind
      case name => exact run_namedScript rfl ts
      case word w =>
        cases w
        case letWord => exact letStatement.run_take i rfl ts
        case dimWord => exact dimStatement.run_take i rfl ts
        case ifWord => exact ((condition .ifThen).map Statement.openIf).run_take i rfl ts
        case elseIfWord => exact ((condition .elseIfThen).map Statement.elseIf).run_take i rfl ts
        case elseWord => exact (ends .otherwise).run_take i rfl ts
        case endWord => exact endStatement.run_take i rfl ts
        case whileWord => exact whileStatement.run_take i rfl ts
        case wendWord => exact (ends (.close .wend)).run_take i rfl ts
        case doWord => exact (ends .openDo).run_take i rfl ts
        case loopWord => exact loopStatement.run_take i rfl ts
        case forWord => exact forStatement.run_take i rfl ts
        case nextWord => exact nextStatement.run_take i rfl ts
        case subWord => exact (closureStatement .subroutine).run_take i rfl ts
        case functionWord => exact (closureStatement .function).run_take i rfl ts
        case defunWord => exact defunStatement.run_take i rfl ts
        case returnWord => exact returnStatement.run_take i rfl ts
        case exitWord => exact (jumpStatement .exit).run_take i rfl ts
        case continueWord => exact (jumpStatement .skip).run_take i rfl ts
        case useWord => exact useStatement.run_take i rfl ts
        all_goals exact expressionStatement.run_eq i _
      all_goals exact expressionStatement.run_eq i _

end Scripted
end LineBasic
