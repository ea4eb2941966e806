import LineBasic.Proofs.Entries
import LineBasic.Proofs.Scripts

/-!
# A reader at work

Reading can also be done with things that change while it goes on: a buffer of tokens with a
cursor, a list of the modules that are being read, and a count of the levels that an expression is
inside of. Errors leave from the middle of a statement, an expression or a module, and all of
these things are put back.

* `Rule.Closes` : a statement that can be read takes its whole line.
* `Desk` : what a reader keeps while it works; `Desk.parse` : one more piece read at a desk.
* `Desk.perform_follows`, `Desk.nested_follows` : scripts at a desk do what the rules do.
* `Desk.statement_reads`, `Desk.text_reads`, `Desk.useModule_includes` : so do
  statements, texts and uses.
* `Desk.parse_reads` : a desk at rest reads what its reader reads, and is at rest again.
* `Desk.failed_piece_leaves_earlier_statements` : what a piece that fails leaves behind.
-/

namespace LineBasic

/-! ### A statement takes its whole line -/

namespace Rule

variable {α β : Type}

/-- What the rule leaves of a line is its end. -/
def Closes (r : Rule α) : Prop :=
  ∀ ts a rest, r ts = .ok (a, rest) → (peekKind rest).endsLine = true

theorem Closes.bind (r : Rule α) {f : α → Rule β} (h : ∀ a, Closes (f a)) : Closes (r >>= f) := by
  intro ts b rest hok
  rw [bind_apply] at hok
  cases hr : r ts with
  | error e => simp [hr] at hok
  | ok x =>
    rw [hr] at hok
    exact h x.1 x.2 b rest hok

theorem Closes.branch {b : Bool} {r s : Rule α} (hr : Closes r) (hs : Closes s) :
    Closes (if b = true then r else s) := by
  cases b
  · exact hs
  · exact hr

/-- The end of the line, and something made of what was read. -/
theorem closes_lineEnd (a : α) : Closes fun ts => (lineEnd ts).map fun r => (a, r.2) := by
  intro ts b rest hok
  simp only [lineEnd] at hok
  split at hok
  · next hend =>
    cases hok
    exact hend
  · cases hok

theorem closes_return (a : α) : Closes (do lineEnd; return a) := by
  intro ts b rest hok
  refine closes_lineEnd a ts b rest ?_
  rw [← hok, bind_apply]
  show (lineEnd ts).map _ = _
  cases lineEnd ts <;> rfl

theorem assignment_closes (name : String) : Closes (assignment name) :=
  .bind _ fun _ => closes_return _

theorem letStatement_closes : Closes letStatement :=
  .bind _ fun name => .bind _ fun _ => assignment_closes name

theorem dimStatement_closes : Closes dimStatement :=
  .bind _ fun _ => .bind _ fun _ => .bind _ fun _ => .bind _ fun _ => closes_return _

theorem condition_closes (what : Expectation) : Closes (condition what) :=
  .bind _ fun _ => .bind _ fun _ => closes_return _

theorem loopStatement_closes : Closes loopStatement := .bind _ fun _ => closes_return _

theorem forStatement_closes : Closes forStatement :=
  .bind _ fun _ => .bind _ fun _ => .bind _ fun _ => .bind _ fun _ => .bind _ fun _ =>
    .bind _ fun _ =>
    closes_return _

theorem closureStatement_closes (kind : ClosureKind) : Closes (closureStatement kind) :=
  .bind _ fun _ => .bind _ fun _ =>
    .branch (.bind _ fun _ => closes_return _) (.bind _ fun _ => closes_return _)

theorem defunStatement_closes : Closes defunStatement :=
  .bind _ fun _ => .bind _ fun _ => .bind _ fun _ => .bind _ fun _ => .bind _ fun _ =>
    closes_return _

theorem useStatement_closes : Closes useStatement := .bind _ fun _ => closes_return _

theorem expressionStatement_closes : Closes expressionStatement := .bind _ fun _ => closes_return _

theorem elementAssignment_closes (name : String) : Closes (elementAssignment name) :=
  .bind _ fun _ => .bind _ fun _ => .bind _ fun _ => .bind _ fun _ => closes_return _

theorem callStatement_closes (name : String) : Closes (callStatement name) :=
  .bind _ fun _ => closes_return _

theorem bareCall_closes (name : String) : Closes (bareCall name) := .bind _ fun _ => closes_return _

/-- A rule whose result is changed by a function. -/
theorem Closes.map {r : Rule α} (f : α → β) (h : Closes r) :
    Closes fun ts => (r ts).map fun x => (f x.1, x.2) := by
  intro ts b rest hok
  cases hr : r ts with
  | error e => simp [hr, Except.map] at hok
  | ok x =>
    obtain ⟨a, more⟩ := x
    obtain ⟨-, rfl⟩ : f a = b ∧ more = rest := by simpa [hr, Except.map] using hok
    exact h ts a more hr

theorem endStatement_closes : Closes endStatement := by
  intro ts s rest hok
  cases ts with
  | nil => cases hok
  | cons t ts =>
    simp only [endStatement] at hok
    split at hok
    · cases hok
    · exact closes_lineEnd _ ts s rest hok

theorem nextStatement_closes : Closes nextStatement := by
  intro ts s rest hok
  cases ts with
  | nil =>
    cases hok
    rfl
  | cons t ts =>
    simp only [nextStatement] at hok
    split at hok
    · exact closes_lineEnd _ ts s rest hok
    · exact closes_lineEnd _ (t :: ts) s rest hok

theorem returnStatement_closes : Closes returnStatement := by
  intro ts s rest hok
  simp only [returnStatement] at hok
  split at hok
  · next hend =>
    cases hok
    exact hend
  · exact Closes.bind expression (fun _ => closes_return _) ts s rest hok

theorem jumpStatement_closes (j : Jump) : Closes (jumpStatement j) := by
  intro ts s rest hok
  cases ts with
  | nil => cases hok
  | cons t ts =>
    simp only [jumpStatement] at hok
    split at hok
    · cases hok
    · exact closes_lineEnd _ ts s rest hok

theorem nameStatement_closes (name : Token) : Closes (nameStatement name) := by
  intro ts s rest hok
  simp only [nameStatement] at hok
  split at hok
  · next hend =>
    cases hok
    exact hend
  · split at hok
    · exact bareCall_closes _ ts s rest hok
    · exact expressionStatement_closes (name :: ts) s rest hok

theorem namedStatement_closes (name : Token) : Closes (namedStatement name) := by
  intro ts s rest hok
  unfold namedStatement at hok
  split at hok
  · exact nameStatement_closes name [] s rest hok
  · next t more =>
    split at hok
    · exact assignment_closes _ more s rest hok
    · split at hok
      · exact nameStatement_closes name _ s rest hok
      · split at hok
        · exact elementAssignment_closes _ more s rest hok
        · split at hok
          · exact callStatement_closes _ more s rest hok
          · exact nameStatement_closes name _ s rest hok
    · exact nameStatement_closes name _ s rest hok

theorem statement_closes : Closes statement := by
  intro ts s rest hok
  cases ts with
  | nil => cases hok
  | cons t ts =>
    obtain ⟨kind, lexeme, line, column, value⟩ := t
    cases kind
    case name => exact namedStatement_closes _ ts s rest hok
    case word w =>
      cases w
      case letWord => exact letStatement_closes ts s rest hok
      case dimWord => exact dimStatement_closes ts s rest hok
      case ifWord => exact (condition_closes .ifThen).map Statement.openIf ts s rest hok
      case elseIfWord => exact (condition_closes .elseIfThen).map Statement.elseIf ts s rest hok
      case elseWord => exact closes_lineEnd _ ts s rest hok
      case endWord => exact endStatement_closes ts s rest hok
      case whileWord => exact Closes.bind expression (fun _ => closes_return _) ts s rest hok
      case wendWord => exact closes_lineEnd _ ts s rest hok
      case doWord => exact closes_lineEnd _ ts s rest hok
      case loopWord => exact loopStatement_closes ts s rest hok
      case forWord => exact forStatement_closes ts s rest hok
      case nextWord => exact nextStatement_closes ts s rest hok
      case subWord => exact closureStatement_closes _ ts s rest hok
      case functionWord => exact closureStatement_closes _ ts s rest hok
      case defunWord => exact defunStatement_closes ts s rest hok
      case returnWord => exact returnStatement_closes ts s rest hok
      case exitWord => exact jumpStatement_closes _ ts s rest hok
      case continueWord => exact jumpStatement_closes _ ts s rest hok
      case useWord => exact useStatement_closes ts s rest hok
      all_goals exact expressionStatement_closes _ s rest hok
    all_goals exact expressionStatement_closes _ s rest hok

end Rule

/-! ### The first line of tokens -/

namespace Tokens

/-- The tokens up to the first that ends a line. -/
def firstLine : List Token → List Token
  | [] => []
  | t :: ts => if t.kind.endsLine then [t] else t :: firstLine ts

/-- The tokens after the first that ends a line. -/
def afterLine : List Token → List Token
  | [] => []
  | t :: ts => if t.kind.endsLine then ts else afterLine ts

theorem splitLines_cons (t : Token) (ts : List Token) :
    splitLines (t :: ts) = firstLine (t :: ts) :: splitLines (afterLine (t :: ts)) := by
  induction ts generalizing t with
  | nil => by_cases ht : t.kind.endsLine = true <;> simp [splitLines, firstLine, afterLine, ht]
  | cons u us ih =>
    by_cases ht : t.kind.endsLine = true
    · simp [splitLines, firstLine, afterLine, ht]
    · rw [splitLines, if_neg ht, ih]
      simp only [firstLine.eq_2 t, afterLine.eq_2 t, if_neg ht]

theorem firstLine_advanced (ts : List Token) :
    firstLine (advanced ts) = advanced (firstLine ts) := by
  cases ts with
  | nil => rfl
  | cons t ts => by_cases ht : t.kind.endsLine = true <;> simp [firstLine, advanced, ht]

theorem afterLine_advanced (ts : List Token) : afterLine (advanced ts) = afterLine ts := by
  cases ts with
  | nil => rfl
  | cons t ts => by_cases ht : t.kind.endsLine = true <;> simp [afterLine, advanced, ht]

theorem peekKind_firstLine (ts : List Token) : Rule.peekKind (firstLine ts) = Rule.peekKind ts := by
  cases ts with
  | nil => rfl
  | cons t ts => by_cases ht : t.kind.endsLine = true <;> simp [firstLine, Rule.peekKind, ht]

end Tokens

/-- From the end of a line on, the line itself says nothing more. -/
theorem Reading.lines_of_endsLine (use : Includer) {ts : List Token}
    (h : (Rule.peekKind ts).endsLine = true) (p : Progress) :
    lines use (splitLines ts) p = lines use (splitLines (Tokens.afterLine ts)) p := by
  cases ts with
  | nil => rfl
  | cons t ts =>
    have ht : t.kind.endsLine = true := h
    simp [splitLines, Tokens.afterLine, ht, lines, line]

/-! ### The desk -/

/-- All that a reader keeps while it works: the draft, the nodes handed out by the piece that is
read, the number of the next line, the tokens of the text that is read and the place among them, the
modules that are being read, and the number of levels that an expression is inside of. -/
structure Desk where
  draft : Draft
  handed : Array Node
  line : Nat
  tokens : List Token
  cursor : Nat
  including : List String
  nesting : Nat

namespace Desk

/-- Nothing read yet. -/
def start : Desk := ⟨.empty, #[], 1, [], 0, [], 0⟩

/-- The tokens that are left. -/
def rest (d : Desk) : List Token := d.tokens.drop d.cursor

/-- The desk with another place among the tokens. -/
def movedTo (d : Desk) (cursor : Nat) : Desk := { d with cursor := cursor }

/-- Passes a token. The end of a line is not passed. -/
def advance (d : Desk) : Desk :=
  if (Rule.peekKind d.rest).endsLine then d else d.movedTo (d.cursor + 1)

/-- What the draft and the nodes handed out come to. -/
def progress (d : Desk) : Progress := ⟨d.draft, d.handed⟩

/-- The desk with another draft and other nodes handed out. -/
def put (d : Desk) (p : Progress) : Desk := { d with draft := p.draft, handed := p.handed }

/-- What the desk holds between two pieces of source. -/
def reader (d : Desk) : Reader := ⟨d.draft, d.line⟩

end Desk

/-- Follows a script at a desk, given how rules are followed one level deeper. -/
def Script.perform {α : Type} (nested : Inner → Desk → Desk × Except SyntaxFault Node) :
    Script α → Desk → Desk × Except SyntaxFault α
  | done a, d => (d, .ok a)
  | fail f, d => (d, .error f)
  | look next, d => (next (Tokens.firstLine d.rest)).perform nested d
  | take next, d => next.perform nested d.advance
  | nest rule next, d =>
    match nested rule d with
    | (d', .ok n) => (next n).perform nested d'
    | (d', .error f) => (d', .error f)

namespace Desk

/-- Follows a rule one level deeper, unless the desk has counted too many levels. The first argument
bounds the recursion. -/
def nested : Nat → Inner → Desk → Desk × Except SyntaxFault Node
  | 0, _, d => (d, .error .tooDeep)
  | fuel + 1, rule, d =>
    if Level.nestingLimit ≤ d.nesting then (d, .error .tooDeep)
    else
      let (d', result) :=
        rule.scripted.script.perform (nested fuel) { d with nesting := d.nesting + 1 }
      ({ d' with nesting := d'.nesting - 1 }, result)

/-- Reads what stands at the cursor: the end of a line, or a statement. -/
def statement (use : String → Nat → Desk → Desk × Option Error) (d : Desk) : Desk × Option Error :=
  match d.rest with
  | [] => (d, none)
  | t :: _ =>
    if t.kind.endsLine then (d.movedTo (d.cursor + 1), none)
    else
      match Scripted.statement.script.perform (nested Level.nestingLimit) d with
      | (d', .error f) => (d', some (.grammatical t.line f))
      | (d', .ok (.use name)) => use name t.line d'
      | (d', .ok s) =>
        match d'.draft.place t.line s with
        | .error f => (d', some (.grammatical t.line f))
        | .ok r => (d'.put (d'.progress.advance r), none)

/-- Reads statements up to the end of the tokens or the first error. The first argument bounds their
number. -/
def statements (use : String → Nat → Desk → Desk × Option Error) : Nat → Desk → Desk × Option Error
  | 0, d => (d, none)
  | fuel + 1, d =>
    if d.rest.isEmpty then (d, none)
    else
      match d.statement use with
      | (d', some e) => (d', some e)
      | (d', none) => statements use fuel d'

/-- Reads a text with tokens and a cursor of its own. -/
def text (use : String → Nat → Desk → Desk × Option Error) (source : String) (d : Desk) :
    Desk × Option Error :=
  let s := scan d.line source
  let d' : Desk := { d with line := d.line + max 1 (Text.lineCount source) }
  match s.error with
  | some e => (d', some (.lexical e))
  | none =>
    let (d'', e?) := statements use s.tokens.length { d' with tokens := s.tokens, cursor := 0 }
    ({ d'' with tokens := d.tokens, cursor := d.cursor }, e?)

/-- Reads a `USE`. A module is noted while it is read, and its lines count from one. The first
argument bounds the number of modules inside each other. -/
def useModule (catalog : Catalog) : Nat → String → Nat → Desk → Desk × Option Error
  | 0, name, line, d => (d, some (.grammatical line (.circularUse name)))
  | depth + 1, name, line, d =>
    if d.including.contains name then (d, some (.grammatical line (.circularUse name)))
    else
      match catalog.lookup name with
      | some (.error f) => (d, some (.disk f))
      | some (.ok (.source _ source)) =>
        let (d', e?) :=
          text (useModule catalog depth) source
            { d with including := name :: d.including, line := 1 }
        ({ d' with including := d'.including.tail, line := d.line }, e?)
      | found =>
        match Bundle.ofName? name, found with
        | some _, _ => (d.put (d.progress.add (.plain (.inclusion (.library name)) [])), none)
        | none, some (.ok (.script path)) =>
          (d.put (d.progress.add (.plain (.inclusion (.script path)) [])), none)
        | none, _ => (d, some (.moduleNotFound name))

/-- Reads one more piece of source and takes the nodes that it finishes. -/
def parse (catalog : Catalog) (source : String) (d : Desk) : Desk × Except Error (List Node) :=
  match text (useModule catalog (catalog.length + 1)) source { d with handed := #[] } with
  | (d', some e) => (d', .error e)
  | (d', none) => ({ d' with handed := #[] }, .ok d'.handed.toList)

/-- Drops the construct that is open. -/
def abandon (d : Desk) : Desk := { d with draft := d.draft.abandon, handed := #[] }

/-! ### Rules at a desk -/

variable {α : Type} {d : Desk}

@[simp] theorem movedTo_cursor (d : Desk) : d.movedTo d.cursor = d := rfl

@[simp] theorem movedTo_movedTo (d : Desk) (c c' : Nat) :
    (d.movedTo c).movedTo c' = d.movedTo c' := rfl

theorem exists_advance (d : Desk) : ∃ c, d.cursor ≤ c ∧ d.advance = d.movedTo c := by
  unfold advance
  split
  · exact ⟨d.cursor, Nat.le_refl _, rfl⟩
  · exact ⟨d.cursor + 1, Nat.le_succ _, rfl⟩

theorem rest_movedTo_succ {t : Token} {ts : List Token} (h : d.rest = t :: ts) :
    (d.movedTo (d.cursor + 1)).rest = ts := by
  show d.tokens.drop (d.cursor + 1) = ts
  rw [← List.tail_drop]
  show d.rest.tail = ts
  rw [h, List.tail_cons]

theorem length_rest_movedTo (d : Desk) {c : Nat} (h : d.cursor ≤ c) :
    (d.movedTo c).rest.length = d.rest.length - (c - d.cursor) := by
  show (d.tokens.drop c).length = (d.tokens.drop d.cursor).length - (c - d.cursor)
  rw [List.length_drop, List.length_drop]
  omega

theorem rest_advance (d : Desk) : d.advance.rest = Tokens.advanced d.rest := by
  unfold advance
  cases hrest : d.rest with
  | nil =>
    simp only [Rule.peekKind, TokenKind.endsLine, if_true, hrest]
    rfl
  | cons t ts =>
    by_cases ht : t.kind.endsLine = true
    · simp [Rule.peekKind, Tokens.advanced, ht, hrest]
    · simp [Rule.peekKind, Tokens.advanced, ht, rest_movedTo_succ hrest]

/-- What is done at a desk, and what a rule does on the first line that is left there: both give the
same, and of the desk only the place among the tokens changes. -/
inductive Follows (d : Desk) :
    Desk × Except SyntaxFault α → Except SyntaxFault (α × List Token) → Prop
  | ok (a : α) (c : Nat) (forward : d.cursor ≤ c)
      (sameLine : Tokens.afterLine (d.movedTo c).rest = Tokens.afterLine d.rest) :
      Follows d (d.movedTo c, .ok a) (.ok (a, Tokens.firstLine (d.movedTo c).rest))
  | error (f : SyntaxFault) (c : Nat) : Follows d (d.movedTo c, .error f) (.error f)

theorem Follows.of_movedTo {c : Nat} {x : Desk × Except SyntaxFault α}
    {y : Except SyntaxFault (α × List Token)} (h : (d.movedTo c).Follows x y)
    (forward : d.cursor ≤ c)
    (sameLine : Tokens.afterLine (d.movedTo c).rest = Tokens.afterLine d.rest) : d.Follows x y := by
  cases h with
  | ok a c' further h => exact .ok a c' (Nat.le_trans forward further) (h.trans sameLine)
  | error f c' => exact .error f c'

/-- Rules followed one level deeper do what the rules of a level do that has as much room
as the desk has left. -/
def FollowsLevel (nested : Inner → Desk → Desk × Except SyntaxFault Node) (room : Nat) : Prop :=
  ∀ rule (d : Desk), d.nesting + room = Level.nestingLimit →
    d.Follows (nested rule d) ((Level.withRoom room).rule rule (Tokens.firstLine d.rest))

theorem perform_follows {nested : Inner → Desk → Desk × Except SyntaxFault Node} {room : Nat}
    (h : FollowsLevel nested room) (p : Script α) (d : Desk)
    (hd : d.nesting + room = Level.nestingLimit) :
    d.Follows (p.perform nested d) (p.run (Level.withRoom room) (Tokens.firstLine d.rest)) := by
  induction p generalizing d with
  | done a => exact .ok a d.cursor (Nat.le_refl _) rfl
  | fail f => exact .error f d.cursor
  | look next ih => exact ih _ d hd
  | take next ih =>
    obtain ⟨c, forward, hc⟩ := d.exists_advance
    have hrest := d.rest_advance
    simp only [Script.perform, Script.run, ← Tokens.firstLine_advanced, ← hrest]
    rw [hc] at hrest ⊢
    exact (ih (d.movedTo c) hd).of_movedTo forward (by rw [hrest, Tokens.afterLine_advanced])
  | nest rule next ih =>
    have hrule := h rule d hd
    simp only [Script.perform, Script.run]
    generalize nested rule d = x at hrule
    generalize (Level.withRoom room).rule rule (Tokens.firstLine d.rest) = y at hrule
    cases hrule with
    | ok n c forward sameLine => exact (ih n (d.movedTo c) hd).of_movedTo forward sameLine
    | error f c => exact .error f c

/-- The levels that the desk counts are those that the rules have room for, and after a rule the
count is what it was, whether the rule failed or not. -/
theorem nested_follows (room : Nat) : FollowsLevel (nested room) room := by
  induction room with
  | zero => exact fun rule d _ => by cases rule <;> exact .error .tooDeep d.cursor
  | succ room ih =>
    intro rule d hd
    have hroom : ¬ Level.nestingLimit ≤ d.nesting := by omega
    have hrule : (Level.withRoom (room + 1)).rule rule =
        rule.scripted.script.run (Level.withRoom room) := (rule.scripted.runs _).symm
    have hinner := perform_follows ih rule.scripted.script { d with nesting := d.nesting + 1 }
      (by simpa [Nat.add_right_comm, Nat.add_assoc] using hd)
    have hrest : Desk.rest { d with nesting := d.nesting + 1 } = d.rest := rfl
    rw [hrest] at hinner
    rw [hrule, nested, if_neg hroom]
    generalize rule.scripted.script.perform (nested room)
      { d with nesting := d.nesting + 1 } = x at hinner
    generalize rule.scripted.script.run (Level.withRoom room)
      (Tokens.firstLine d.rest) = y at hinner
    cases hinner with
    | ok n c forward sameLine => exact .ok n c forward sameLine
    | error f c => exact .error f c

/-! ### Statements at a desk -/

/-- Uses at a desk do what an includer does inside the modules that the desk has noted. -/
def Includes (use : String → Nat → Desk → Desk × Option Error) (includer : List String → Includer) :
    Prop :=
  ∀ name line (d : Desk), d.nesting = 0 →
    use name line d =
      (d.put (includer d.including name line d.progress).1,
        (includer d.including name line d.progress).2)

variable {use : String → Nat → Desk → Desk × Option Error} {includer : List String → Includer}

/-- A statement at a desk is a line that is read. If it can be read, then what is left is less, and
says what the lines after it say. -/
theorem statement_reads (h : Includes use includer) {d : Desk} (hd : d.nesting = 0) {t : Token}
    {ts : List Token} (hrest : d.rest = t :: ts) {q : Progress} {e? : Option Error}
    (hread : Reading.line (includer d.including) (Tokens.firstLine d.rest) d.progress = (q, e?)) :
    ∃ c, d.statement use = ((d.movedTo c).put q, e?) ∧
      (e? = none → (d.movedTo c).rest.length < d.rest.length ∧
        ∀ p, Reading.lines (includer d.including) (splitLines (d.movedTo c).rest) p =
          Reading.lines (includer d.including) (splitLines (Tokens.afterLine d.rest)) p) := by
  by_cases ht : t.kind.endsLine = true
  · have hline : (d.progress, none) = (q, e?) := by
      rw [← hread, hrest]
      simp [Tokens.firstLine, Reading.line, ht]
    cases hline
    refine ⟨d.cursor + 1, ?_, fun _ => ⟨?_, fun p => ?_⟩⟩
    · simp only [statement, hrest, ht, if_true]
      rfl
    · simp [rest_movedTo_succ hrest, hrest]
    · simp [rest_movedTo_succ hrest, hrest, Tokens.afterLine, ht]
  · have hfirst : Tokens.firstLine d.rest = t :: Tokens.firstLine ts := by
      rw [hrest, Tokens.firstLine, if_neg ht]
    have hfollows : d.Follows (Scripted.statement.script.perform (nested Level.nestingLimit) d)
        (Rule.statement (Tokens.firstLine d.rest)) := by
      rw [← Scripted.statement.run_eq () (Tokens.firstLine d.rest)]
      exact perform_follows (nested_follows Level.nestingLimit) _ d (by rw [hd, Nat.zero_add])
    simp only [statement, hrest, ht]
    simp only [hfirst, Reading.line, ht] at hread hfollows
    generalize Scripted.statement.script.perform (nested Level.nestingLimit) d = x at hfollows ⊢
    generalize hy : Rule.statement (t :: Tokens.firstLine ts) = y at hfollows hread
    cases hfollows with
    | error f c =>
      cases hread
      exact ⟨c, rfl, fun hnone => absurd hnone (by simp)⟩
    | ok s c forward sameLine =>
      have hend : (Rule.peekKind (d.movedTo c).rest).endsLine = true := by
        rw [← Tokens.peekKind_firstLine]
        exact Rule.statement_closes _ s _ hy
      -- the statement has passed a token, because its first one does not end the line
      have hmoved : d.cursor ≠ c := by
        rintro rfl
        rw [movedTo_cursor, hrest] at hend
        exact ht hend
      have hshorter : (d.movedTo c).rest.length < d.rest.length := by
        rw [length_rest_movedTo d forward, hrest, List.length_cons]
        omega
      have hlater (p : Progress) :
          Reading.lines (includer d.including) (splitLines (d.movedTo c).rest) p =
          Reading.lines (includer d.including) (splitLines (Tokens.afterLine d.rest)) p := by
        rw [Reading.lines_of_endsLine _ hend, sameLine]
      refine ⟨c, ?_, fun _ => ⟨by rwa [hrest] at hshorter, by rwa [hrest] at hlater⟩⟩
      cases s
      case use name =>
        have huse := h name t.line (d.movedTo c) hd
        have hsame :
            includer (d.movedTo c).including name t.line (d.movedTo c).progress = (q, e?) := hread
        rw [hsame] at huse
        exact huse
      all_goals
        have hplace : (d.movedTo c).draft = d.progress.draft := rfl
        simp only [hplace] at hread ⊢
        generalize d.progress.draft.place t.line _ = placed at hread ⊢
        cases placed <;> cases hread <;> rfl

/-- Statements at a desk are the lines that are read. -/
theorem statements_read (h : Includes use includer) {fuel : Nat} {d : Desk} (hd : d.nesting = 0)
    (hfuel : d.rest.length ≤ fuel) {q : Progress} {e? : Option Error}
    (hread : Reading.lines (includer d.including) (splitLines d.rest) d.progress = (q, e?)) :
    ∃ c, statements use fuel d = ((d.movedTo c).put q, e?) := by
  induction fuel generalizing d with
  | zero =>
    have hrest : d.rest = [] := List.length_eq_zero_iff.1 (by omega)
    rw [hrest] at hread
    cases hread
    exact ⟨d.cursor, rfl⟩
  | succ fuel ih =>
    cases hrest : d.rest with
    | nil =>
      rw [hrest] at hread
      cases hread
      exact ⟨d.cursor, by simp only [statements, hrest]; rfl⟩
    | cons t ts =>
      rw [hrest, Tokens.splitLines_cons, ← hrest] at hread
      obtain ⟨⟨p, f?⟩, hline⟩ : ∃ read,
          Reading.line (includer d.including) (Tokens.firstLine d.rest) d.progress =
            read := ⟨_, rfl⟩
      obtain ⟨c, hstatement, hmore⟩ := statement_reads h hd hrest hline
      simp only [Reading.lines, hline] at hread
      simp only [statements, hrest, List.isEmpty_cons, hstatement]
      cases f? with
      | some f =>
        cases hread
        exact ⟨c, rfl⟩
      | none =>
        obtain ⟨hshorter, hlater⟩ := hmore rfl
        obtain ⟨c', hstatements⟩ := ih (d := (d.movedTo c).put p) hd
          (Nat.le_of_lt_succ (Nat.lt_of_lt_of_le hshorter hfuel)) ((hlater p).trans hread)
        exact ⟨c', hstatements⟩

/-! ### Texts and modules at a desk -/

/-- A text that is read leaves the tokens and the cursor as they were, and the
desk counts its lines. -/
theorem text_reads (h : Includes use includer) {d : Desk} (hd : d.nesting = 0) (source : String)
    {q : Progress} {e? : Option Error}
    (hread : Reading.text (includer d.including) d.line source d.progress = (q, e?)) :
    text use source d = ({ d.put q with line := d.line + max 1 (Text.lineCount source) }, e?) := by
  simp only [Reading.text] at hread
  simp only [text]
  cases herror : (scan d.line source).error with
  | some e =>
    rw [herror] at hread
    cases hread
    rfl
  | none =>
    rw [herror] at hread
    let d' : Desk := ⟨d.draft, d.handed, d.line + max 1 (Text.lineCount source),
      (scan d.line source).tokens, 0, d.including, d.nesting⟩
    obtain ⟨c, hstatements⟩ := statements_read h (d := d') hd (Nat.le_refl _) hread
    show ({ (statements use d'.rest.length d').1 with tokens := d.tokens, cursor := d.cursor },
      (statements use d'.rest.length d').2) = _
    rw [hstatements]
    rfl

/-- A use at a desk leaves the list of modules and the number of the next line as they were. -/
theorem useModule_includes (catalog : Catalog) (depth : Nat) :
    Includes (useModule catalog depth) (Reading.includeModule catalog depth) := by
  induction depth with
  | zero => exact fun _ _ _ _ => rfl
  | succ depth ih =>
    intro name line d hd
    simp only [useModule, Reading.includeModule]
    split
    · rfl
    · obtain _ | (fault | (⟨path, source⟩ | path)) := catalog.lookup name
      · cases Bundle.ofName? name <;> rfl
      · rfl
      · let d' : Desk := { d with including := name :: d.including, line := 1 }
        have htext := text_reads ih (d := d') hd source rfl
        simp only [d'] at htext
        simp only [htext]
        rfl
      · cases Bundle.ofName? name <;> rfl

/-! ### Calls at a desk -/

/-- A desk for a reader, with nothing on it that belongs to a text. -/
def ofReader (r : Reader) : Desk := ⟨r.draft, #[], r.line, [], 0, [], 0⟩

/-- No text is being read: no module is noted, and no level is counted. -/
structure AtRest (d : Desk) : Prop where
  including : d.including = []
  nesting : d.nesting = 0

/-- A piece that is read at a desk is read by its reader. The desk is at rest again after it, with
the tokens and the cursor it had before. -/
theorem parse_reads (hd : d.AtRest) (catalog : Catalog) (source : String) :
    ∃ handed, d.parse catalog source =
      (⟨(d.reader.parse catalog source).1.draft, handed, (d.reader.parse catalog source).1.line,
        d.tokens, d.cursor, [], 0⟩, (d.reader.parse catalog source).2) := by
  obtain ⟨draft, handed, line, tokens, cursor, including, nesting⟩ := d
  obtain ⟨rfl, rfl⟩ : including = [] ∧ nesting = 0 := ⟨hd.including, hd.nesting⟩
  obtain ⟨⟨q, e?⟩, hread⟩ : ∃ read, Reading.piece catalog line source draft = read := ⟨_, rfl⟩
  have htext := text_reads (useModule_includes catalog (catalog.length + 1))
    (d := ⟨draft, #[], line, tokens, cursor, [], 0⟩) rfl source hread
  simp only [parse, htext, reader, Reader.parse, hread]
  cases e? with
  | none => exact ⟨#[], rfl⟩
  | some e => exact ⟨q.handed, rfl⟩

/-- What is asked of a desk from outside. -/
def call : Reader.Call → Desk → Desk × Except Error (List Node)
  | .parse catalog source, d => d.parse catalog source
  | .abandon, d => (d.abandon, .ok [])

/-- A call at a desk that is at rest is a call of its reader. -/
theorem call_reads (hd : d.AtRest) (c : Reader.Call) :
    (d.call c).1.AtRest ∧ (d.call c).1.reader = (c.run d.reader).1 ∧
      (d.call c).2 = (c.run d.reader).2 := by
  cases c with
  | abandon => exact ⟨⟨hd.including, hd.nesting⟩, rfl, rfl⟩
  | parse catalog source =>
    obtain ⟨handed, hparse⟩ := parse_reads hd catalog source
    rw [call, hparse]
    exact ⟨⟨rfl, rfl⟩, rfl, rfl⟩

/-- The desk after calls. -/
def after : List Reader.Call → Desk → Desk
  | [], d => d
  | c :: cs, d => after cs (d.call c).1

/-- The answers to calls. -/
def answers : List Reader.Call → Desk → List (Except Error (List Node))
  | [], _ => []
  | c :: cs, d => (d.call c).2 :: answers cs (d.call c).1

theorem after_atRest (hd : d.AtRest) (calls : List Reader.Call) : (after calls d).AtRest := by
  induction calls generalizing d with
  | nil => exact hd
  | cons c cs ih => exact ih (call_reads hd c).1

/-- Desks at rest give the same answers if their readers are the same. -/
theorem answers_congr {d' : Desk} (hd : d.AtRest) (hd' : d'.AtRest) (h : d.reader = d'.reader)
    (calls : List Reader.Call) : answers calls d = answers calls d' := by
  induction calls generalizing d d' with
  | nil => rfl
  | cons c cs ih =>
    obtain ⟨hrest, hreader, hanswer⟩ := call_reads hd c
    obtain ⟨hrest', hreader', hanswer'⟩ := call_reads hd' c
    rw [← h] at hreader' hanswer'
    simp only [answers, hanswer, hanswer', ih hrest hrest' (hreader.trans hreader'.symm)]

/-- A piece that fails, at a desk that any calls have led to, leaves the desk as after the
statements before the failing one, those of modules in place of their uses. If the text itself
has a lexical fault, the tree and the open constructs are as they were. No module is noted and
no level is counted any more, the tokens and the cursor are back, and the lines of the text
are counted. All later calls are answered as by a new desk with the same draft and the same
number of the next line. -/
theorem failed_piece_leaves_earlier_statements (calls : List Reader.Call) (catalog : Catalog)
    (source : String) {d d' : Desk} {e : Error} (reached : after calls start = d)
    (failed : d.parse catalog source = (d', .error e)) :
    (∃ before item rest,
      Entry.ofPiece catalog d.line source = before.map .statement ++ item :: rest ∧
      Draft.placeAll? before d.draft = some d'.draft ∧ item.place d'.draft = .error e) ∧
    (∀ fault, (scan d.line source).error = some fault → d'.draft = d.draft ∧ e = .lexical fault) ∧
    d'.including = [] ∧ d'.nesting = 0 ∧ d'.tokens = d.tokens ∧ d'.cursor = d.cursor ∧
    d'.line = d.line + max 1 (Text.lineCount source) ∧
    d.reader.parse catalog source = (d'.reader, .error e) ∧
    ∀ later, answers later d' = answers later (ofReader d'.reader) := by
  have hrest : d.AtRest := reached ▸ after_atRest (d := start) ⟨rfl, rfl⟩ calls
  obtain ⟨handed, hparse⟩ := parse_reads hrest catalog source
  have hline := d.reader.parse_line catalog source
  rw [failed] at hparse
  obtain ⟨⟨r', result⟩, hread⟩ : ∃ read, d.reader.parse catalog source = read := ⟨_, rfl⟩
  rw [hread] at hparse hline
  cases hparse
  have hnew : (ofReader r').AtRest := ⟨rfl, rfl⟩
  refine ⟨(Reader.parse_error hread).1, fun fault hfault => ?_, rfl, rfl, rfl, rfl, hline, hread,
    answers_congr ⟨rfl, rfl⟩ hnew rfl⟩
  have hlexical := Reader.parse_lexical (r := d.reader) catalog hfault
  rw [hread] at hlexical
  cases hlexical
  exact ⟨rfl, rfl⟩

/-- A module opens a loop, and a parenthesis of its second line is not closed. The loop stays open,
with the statement before the use. -/
theorem failed_piece_leaves_earlier_statements_module :
    let catalog : Catalog := [("PART", .ok (.source "part.bas" "WHILE A < 5\nA = (A + 1\nWEND"))]
    ∃ d' e, start.parse catalog "A = 1\nUSE Part\nWEND" = (d', .error e) ∧
      d'.draft.done.size = 1 ∧ d'.draft.opened.length = 1 ∧ d'.including = [] ∧ d'.nesting = 0 ∧
      d'.tokens = [] ∧ d'.cursor = 0 ∧ d'.line = 4 := by
  intro catalog
  have hends : (match start.parse catalog "A = 1\nUSE Part\nWEND" with
      | (d', .error _) => some (d'.draft.done.size, d'.draft.opened.length)
      | (_, .ok _) => none) = some (1, 1) := by decide +kernel
  obtain ⟨⟨d', e | nodes⟩, hparse⟩ : ∃ read, start.parse catalog "A = 1\nUSE Part\nWEND" = read :=
    ⟨_, rfl⟩
  · rw [hparse] at hends
    obtain ⟨hdone, hopened⟩ : d'.draft.done.size = 1 ∧ d'.draft.opened.length = 1 := by
      simpa using hends
    obtain ⟨-, -, hincluding, hnesting, htokens, hcursor, hline, -⟩ :=
      failed_piece_leaves_earlier_statements [] catalog _ rfl hparse
    exact ⟨d', e, hparse, hdone, hopened, hincluding, hnesting, htokens, hcursor, hline⟩
  · rw [hparse] at hends
    cases hends

end Desk
end LineBasic
