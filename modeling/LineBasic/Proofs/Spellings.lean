import LineBasic.Proofs.Inlining
import LineBasic.Proofs.Locality
import LineBasic.Proofs.WordLines

/-!
# Alternative spellings

Some statements can be written in more than one way. What the rules for lines make of the words of
each way is one statement, or statements that leave the same in a draft. So a text with one spelling
can be replaced by a text with the other, wherever it stands.

The calls need an argument. A call without parentheses whose first argument starts with one
is read as a call with parentheses if the two that belong together are all around its
arguments, as in `F (1)`; then the only argument is what stands in them, and that is the same
expression. If an equality sign comes after the closing one, as in `F (1) = 2`, the line is
an assignment to an element instead.

* `Rule.takes_let`, `Rule.takes_until`, … : what the rule for lines takes.
* `Rule.opensAssignment` : the arguments with which a call without parentheses is an
  assignment to an element.
* `Respelling` : two ways of writing the same, where a draft stands. `Respelling.written`
  : both lead to the same.
* `Reader.unnumbered_parse?_congr` : drafts that differ in the numbers of lines
  only go on in the same way.
* `spellings_read_alike` : texts with two spellings, among any other texts.
-/

namespace LineBasic

/-! ### Signs -/

namespace Word

/-- An opening parenthesis. -/
def openParen : Word := plain .leftParen "("

/-- A closing parenthesis. -/
def closeParen : Word := plain .rightParen ")"

/-- The sign of assignments. -/
def equal : Word := plain .equal "="

/-- The sign between items. -/
def comma : Word := plain .comma ","

@[simp] theorem token_openParen_kind : openParen.token.kind = .leftParen := rfl

@[simp] theorem token_comma_kind : comma.token.kind = .comma := rfl

@[simp] theorem token_keyword_kind (k : Keyword) : (keyword k).token.kind = .word k := rfl

end Word

namespace Rule

open Level

variable {α : Type}

/-- What takes the words of a line takes them inside parentheses as well. -/
theorem Carries.takes {P : List Token → Prop} {r r' : Rule α} (h : Carries P r r') {ws : List Word}
    {a : α} (htakes : r.Takes ws a) : P (ws.map Word.token) ∧
      ∀ rest, stops (peekKind rest) = true → r' (ws.map Word.token ++ rest) = .ok (a, rest) := by
  obtain ⟨used, hused, hP, hcarry⟩ := h htakes
  obtain rfl := List.append_cancel_right hused
  exact ⟨hP, fun rest hstop => hcarry rest (.inr hstop)⟩

theorem expression_carries {room : Nat} (hroom : room ≤ nestingLimit) :
    Carries Phrase (withRoom room).expression expression := (withRoom_carries hroom).expression

theorem arguments_carries : Carries Phrase (arguments expression) (arguments expression) :=
  commaItems_carries (expression_carries le_rfl) .tooManyArguments itemLimit

variable {x f : String} {e as : List Word} {v : Node} {vs : List Node} {names : List String}

/-! ### Assignments -/

theorem takes_assignment (he : expression.Takes e v) :
    statement.Takes (.name x :: .equal :: e) (.simple (.operation .assign [.ofName x, v])) := by
  show assignment x (Words.line e) = _
  rw [assignment, bind_ok he]
  rfl

/-- After `LET` comes the same. -/
theorem takes_let (he : expression.Takes e v) :
    statement.Takes (.keyword .letWord :: .name x :: .equal :: e)
      (.simple (.operation .assign [.ofName x, v])) :=
  takes_assignment he

/-! ### Guards of `DO` loops -/

theorem takes_until (he : expression.Takes e v) :
    statement.Takes (.keyword .loopWord :: .keyword .untilWord :: e)
      (.loop (.operation .not [v])) := by
  have hguard : loopGuard (Word.token (.keyword .untilWord) :: Words.line e) =
      .ok (.operation .not [v], [.lineEnd]) := by
    have hwhile :
        peekKind (Word.token (.keyword .untilWord) :: Words.line e) ≠ .word .whileWord := by
      rw [peekKind]
      decide
    rw [loopGuard, branch_of_ne hwhile, untilGuard,
      branch_of_eq (Word.token_keyword_kind .untilWord), bind_ok he]
    rfl
  show loopStatement (Word.token (.keyword .untilWord) :: Words.line e) = _
  rw [loopStatement, bind_ok hguard]
  rfl

/-- The operand of `NOT` stands in parentheses, so the word and its operand are
the whole expression. -/
theorem takes_while_not {room : Nat} (hroom : room + 2 = nestingLimit)
    (he : (withRoom room).expression.Takes e v) :
    statement.Takes
      (.keyword .loopWord :: .keyword .whileWord :: .keyword .notWord :: .openParen ::
        (e ++ [.closeParen]))
      (.loop (.operation .not [v])) := by
  have hinside :=
    ((withRoom_carries (le_refl room)).expression.takes he).2 [Word.token .closeParen, .lineEnd] rfl
  have hoperand := ruleAt_group 2 (by decide) Word.token_openParen_kind rfl hinside rfl
  let ts := Word.token .openParen :: (e.map Word.token ++ [Word.token .closeParen, .lineEnd])
  have hnot : (withRoom (room + 1)).ruleAt 2 (Word.token (.keyword .notWord) :: ts) =
      granted 0 0 (.ok (.operation .not [v], [.lineEnd])) := by
    show (withRoom (room + 1)).negationRule _ = _
    rw [negationRule, branch_of_eq (Word.token_keyword_kind .notWord)]
    exact bind_ok hoperand
  have hread : expression (Word.token (.keyword .notWord) :: ts) =
      .ok (.operation .not [v], [.lineEnd]) := by
    show (withRoom nestingLimit).expression _ = _
    rw [← hroom]
    exact ruleAt_of_lt (by decide : 1 < 2) (by decide) hnot
      ⟨rfl, fun _ => le_rfl, fun hk => by cases hk⟩
      (follows_cons rfl rfl (by decide) []) (goesOn_of_none rfl)
  have hline :
      Words.line (.keyword .loopWord :: .keyword .whileWord :: .keyword .notWord :: .openParen ::
      (e ++ [.closeParen])) = Word.token (.keyword .loopWord) :: Word.token (.keyword .whileWord) ::
        Word.token (.keyword .notWord) :: ts := by
    simp [Words.line, ts]
  rw [Takes, hline]
  show loopStatement (Word.token (.keyword .whileWord) :: Word.token (.keyword .notWord) :: ts) = _
  rw [loopStatement, loopGuard,
    bind_ok ((branch_of_eq (Word.token_keyword_kind .whileWord) ..).trans hread)]
  rfl

/-! ### Calls -/

/-- The first argument starts with a parenthesis, and the one that closes it is directly
followed by an equality sign. -/
def opensAssignment (as : List Word) : Bool :=
  match as with
  | [] => false
  | w :: more =>
    w.kind = .leftParen && (afterClosing 1 (Words.line more)).any fun rest => peekKind rest = .equal

theorem takes_call_none : statement.Takes [.name f] (.simple (.call f [])) := rfl

theorem takes_call_empty :
    statement.Takes [.name f, .openParen, .closeParen] (.simple (.call f [])) := rfl

/-- Arguments up to a closing parenthesis at the end of the line. -/
theorem callStatement_of_arguments {ts : List Token} {u : Token}
    (hstart : peekKind ts ≠ .rightParen) (hu : u.kind = .rightParen)
    (h : arguments expression ts = .ok (vs, [u, .lineEnd])) :
    callStatement f ts = .ok (.simple (.call f vs), [.lineEnd]) := by
  have hsees : sees .rightParen ts = .ok (false, ts) := by simp [sees, hstart]
  have hargs : enclosed expression .rightParen .argumentsClose ts = .ok (vs, [.lineEnd]) := by
    rw [enclosed, bind_ok hsees]
    exact (bind_ok h).trans (bind_ok (expect_of_eq hu _ _))
  rw [callStatement, bind_ok hargs]
  rfl

theorem takes_call (has : (arguments expression).Takes as vs) :
    statement.Takes (.name f :: .openParen :: (as ++ [.closeParen])) (.simple (.call f vs)) := by
  obtain ⟨hphrase, hcarry⟩ := arguments_carries.takes has
  let ts := as.map Word.token ++ [Word.token .closeParen, .lineEnd]
  have hafter : afterClosing 1 ts = some [.lineEnd] := by
    rw [hphrase.balanced]
    exact afterClosing_last rfl _
  have hline : Words.line (.name f :: .openParen :: (as ++ [.closeParen])) =
      Word.token (.name f) :: Word.token .openParen :: ts := by
    simp [Words.line, ts]
  rw [Takes, hline]
  show namedStatement (Word.token (.name f)) (Word.token .openParen :: ts) = _
  simp only [namedStatement, Word.openParen, Word.token, Word.plain, hafter]
  exact callStatement_of_arguments (hphrase.peekKind_ne .rightParen rfl _) rfl (hcarry _ rfl)

theorem nameStatement_bareCall {t : Token} {ts : List Token} {r : Statement × List Token}
    (hstarts : startsExpression (peekKind ts) = true) (h : bareCall t.lexeme ts = .ok r) :
    nameStatement t ts = .ok r := by
  have hline : (peekKind ts).endsLine = false := by
    cases hk : peekKind ts <;> first | rfl | (rw [hk] at hstarts; cases hstarts)
  rw [nameStatement, hline, hstarts]
  exact h

/-- An argument in parentheses that closes with the line can be read without them. -/
theorem callStatement_of_group {w : Word} {more : List Word} {after : List Token}
    (hopen : w.kind = .leftParen) (has : (arguments expression).Takes (w :: more) vs)
    (hafter : afterClosing 1 (Words.line more) = some after)
    (hends : (peekKind after).endsLine = true) :
    callStatement f (Words.line more) = .ok (.simple (.call f vs), [.lineEnd]) := by
  obtain ⟨v, mid, hfirst, hmore⟩ := bind_eq_ok has
  have hfirst : (withRoom (nestingLimit - 1 + 1)).expression (w.token :: Words.line more) =
      .ok (v, mid) := hfirst
  obtain ⟨inside, u, rest, v', hwords, hu, hphrase, hgroup⟩ := exists_group hopen hfirst
  rw [hwords] at hafter hfirst hgroup ⊢
  -- the parenthesis that the group ends with is the one that was looked for
  obtain rfl : rest = after := by
    rw [hphrase.balanced, afterClosing_last hu] at hafter
    exact Option.some.inj hafter
  have hstop : stops (peekKind rest) = true := by rw [stops, hends, Bool.true_or]
  have hcomma : peekKind rest ≠ .comma := by
    intro hk
    rw [hk] at hends
    cases hends
  -- so the first argument is what stands in parentheses, and there is no other one
  obtain ⟨rfl, rfl⟩ : v' = v ∧ rest = mid := by
    have hread := (ruleAt_group 1 (by decide) hopen hu hgroup hstop).symm.trans hfirst
    exact Prod.mk.inj (Except.ok.inj hread)
  obtain ⟨rfl, rfl⟩ : [v'] = vs ∧ rest = [.lineEnd] := by
    rw [branch_of_ne hcomma] at hmore
    exact Prod.mk.inj (Except.ok.inj hmore)
  have hexpression : expression (inside ++ [u, .lineEnd]) = .ok (v', [u, .lineEnd]) := by
    obtain ⟨used, hused, -, hcarry⟩ := expression_carries (Nat.sub_le nestingLimit 1) hgroup
    rw [hused]
    exact hcarry _ (.inl rfl)
  have hone : arguments expression (inside ++ [u, .lineEnd]) = .ok ([v'], [u, .lineEnd]) := by
    have hnext : peekKind [u, .lineEnd] ≠ .comma := by
      rw [peekKind, hu]
      decide
    rw [arguments, itemLimit, commaItems, bind_ok hexpression, branch_of_ne hnext]
    rfl
  exact callStatement_of_arguments (hphrase.peekKind_ne .rightParen rfl _) hu hone

theorem takes_bareCall (has : (arguments expression).Takes as vs)
    (hsplit : opensAssignment as = false) :
    statement.Takes (.name f :: as) (.simple (.call f vs)) := by
  obtain ⟨hphrase, hcarry⟩ := arguments_carries.takes has
  have hbare : bareCall f (Words.line as) = .ok (.simple (.call f vs), [.lineEnd]) := by
    rw [bareCall, bind_ok has]
    rfl
  cases as with
  | nil => cases hphrase.starts
  | cons w more =>
    have hname : nameStatement (Word.token (.name f)) (w.token :: Words.line more) =
        .ok (.simple (.call f vs), [.lineEnd]) := nameStatement_bareCall hphrase.starts hbare
    show namedStatement (Word.token (.name f)) (w.token :: Words.line more) = _
    simp only [namedStatement]
    split
    · next hequal =>
      have hstarts := hphrase.starts
      rw [List.map_cons, peekKind, hequal] at hstarts
      cases hstarts
    · next hopen =>
      cases hafter : afterClosing 1 (Words.line more) with
      | none => exact hname
      | some after =>
        have hne : peekKind after ≠ .equal := by
          intro hequal
          have hkind : w.kind = .leftParen := hopen
          simp [opensAssignment, hkind, hafter, hequal] at hsplit
        refine (if_neg hne).trans ?_
        by_cases hends : (peekKind after).endsLine = true
        · exact (if_pos hends).trans (callStatement_of_group hopen has hafter hends)
        · exact (if_neg hends).trans hname
    · exact hname

/-! ### Definitions of functions -/

/-- The words of parameters in parentheses. -/
def parameterWords (names : List String) : List Word :=
  .openParen :: ((names.map Word.name).intersperse .comma ++ [.closeParen])

theorem parameterNames_read {limit : Nat} {seen : List String} (hne : names ≠ [])
    (hnodup : names.Nodup) (hseen : ∀ x ∈ names, x ∉ seen) (hlimit : names.length ≤ limit)
    {rest : List Token} (hrest : peekKind rest ≠ .comma) :
    parameterNames limit seen (((names.map Word.name).intersperse .comma).map Word.token ++ rest) =
      .ok (names, rest) := by
  induction names generalizing limit seen with
  | nil => exact absurd rfl hne
  | cons x names ih =>
    obtain ⟨limit, rfl⟩ : ∃ n, limit = n + 1 :=
      Nat.exists_eq_succ_of_ne_zero (by rintro rfl; cases hlimit)
    have hnew : seen.contains x = false := by simpa using hseen x (.head _)
    have hname (ts : List Token) :
        expectName .parameterName (Word.token (.name x) :: ts) = .ok (x, ts) := rfl
    cases names with
    | nil =>
      show parameterNames (limit + 1) seen (Word.token (.name x) :: rest) = _
      rw [parameterNames, bind_ok (hname _), hnew]
      exact branch_of_ne hrest _ _
    | cons y names =>
      have hfresh : ∀ z ∈ y :: names, z ∉ x :: seen := by
        intro z hz
        rw [List.mem_cons, not_or]
        exact ⟨fun h => (List.nodup_cons.1 hnodup).1 (h ▸ hz), hseen z (.tail _ hz)⟩
      have hmore := ih (List.cons_ne_nil _ _) hnodup.of_cons hfresh (Nat.le_of_succ_le_succ hlimit)
      show parameterNames (limit + 1) seen (Word.token (.name x) :: Word.token .comma ::
        (((y :: names).map Word.name).intersperse .comma).map Word.token ++ rest) = _
      rw [parameterNames, List.cons_append, bind_ok (hname _), hnew]
      exact (branch_of_eq Word.token_comma_kind ..).trans (bind_ok hmore)

theorem parameters_read (hnodup : names.Nodup) (hlimit : names.length ≤ itemLimit)
    (rest : List Token) :
    parameters (((names.map Word.name).intersperse .comma).map Word.token ++
      Word.token .closeParen :: rest) =
      .ok (names, rest) := by
  have hclose (names : List String) :
      (do let _ ← expect .rightParen .parametersClose; return names : Rule (List String))
        (Word.token .closeParen :: rest) = .ok (names, rest) := rfl
  cases names with
  | nil => exact hclose []
  | cons x names =>
    let ts := (((x :: names).map Word.name).intersperse .comma).map Word.token ++
      Word.token .closeParen :: rest
    have hnames :
        parameterNames itemLimit [] ts = .ok (x :: names, Word.token .closeParen :: rest) :=
      parameterNames_read (List.cons_ne_nil x names) hnodup
        (fun _ _ => List.not_mem_nil) hlimit nofun
    have hsees : sees .rightParen ts = .ok (false, ts) := by
      cases names <;> rfl
    exact (bind_ok hsees).trans ((bind_ok hnames).trans (hclose (x :: names)))

theorem takes_defun (hnodup : names.Nodup) (hlimit : names.length ≤ itemLimit)
    (he : expression.Takes e v) :
    statement.Takes (.keyword .defunWord :: .name f :: (parameterWords names ++ .equal :: e))
      (.simple (.construct (.function f names) [] [.plain .returned [v]])) := by
  let ts := ((names.map Word.name).intersperse .comma).map Word.token ++
    Word.token .closeParen :: Word.token .equal :: Words.line e
  have hline :
      Words.line (.keyword .defunWord :: .name f :: (parameterWords names ++ .equal :: e)) =
      Word.token (.keyword .defunWord) :: Word.token (.name f) :: Word.token .openParen :: ts := by
    simp [Words.line, parameterWords, ts]
  have hname : expectName .defunName (Word.token (.name f) :: Word.token .openParen :: ts) =
      .ok (f, Word.token .openParen :: ts) := rfl
  rw [Takes, hline]
  show defunStatement (Word.token (.name f) :: Word.token .openParen :: ts) = _
  have hopen : expect .leftParen .defunOpen (Word.token .openParen :: ts) =
      .ok (Word.token .openParen, ts) := rfl
  have hequal : expect .equal .defunEqual (Word.token .equal :: Words.line e) =
      .ok (Word.token .equal, Words.line e) := rfl
  rw [defunStatement, bind_ok hname, bind_ok hopen, bind_ok (parameters_read hnodup hlimit _),
    bind_ok hequal, bind_ok he]
  rfl

theorem takes_function (hnodup : names.Nodup) (hlimit : names.length ≤ itemLimit) :
    statement.Takes (.keyword .functionWord :: .name f :: parameterWords names)
      (.openClosure .function f names) := by
  let ts :=
    ((names.map Word.name).intersperse .comma).map Word.token ++ [Word.token .closeParen, .lineEnd]
  have hline : Words.line (.keyword .functionWord :: .name f :: parameterWords names) =
      Word.token (.keyword .functionWord) :: Word.token (.name f) :: Word.token
        .openParen :: ts := by
    simp [Words.line, parameterWords, ts]
  have hname : expectName (.closureName ClosureKind.function.word)
      (Word.token (.name f) :: Word.token .openParen :: ts) =
        .ok (f, Word.token .openParen :: ts) := rfl
  rw [Takes, hline]
  show closureStatement .function (Word.token (.name f) :: Word.token .openParen :: ts) = _
  rw [closureStatement, bind_ok hname]
  refine (branch_of_eq Word.token_openParen_kind ..).trans ?_
  rw [bind_ok (parameters_read hnodup hlimit _)]
  rfl

theorem takes_return (he : expression.Takes e v) :
    statement.Takes (.keyword .returnWord :: e) (.giveBack (some v)) := by
  have hphrase := ((expression_carries le_rfl).takes he).1
  have hline : (peekKind (Words.line e)).endsLine = false := by
    have hne : peekKind (Words.line e) ≠ .newline ∧ peekKind (Words.line e) ≠ .finish :=
      ⟨hphrase.peekKind_ne .newline rfl _, hphrase.peekKind_ne .finish rfl _⟩
    cases hk : peekKind (Words.line e) <;> first | rfl | simp [hk] at hne
  show returnStatement (Words.line e) = _
  rw [returnStatement, hline]
  exact bind_ok he

end Rule

/-! ### The spellings -/

/-- The ways to end a `FOR` loop over a counter. -/
def Words.forEndings (x : String) : List (List Word) :=
  [[.keyword .nextWord], [.keyword .nextWord, .name x], [.keyword .endWord, .keyword .forWord]]

open Rule Level in
/-- Two ways of writing the same, where a draft stands. -/
inductive Respelling (d : Draft) : List (List Word) → List (List Word) → Prop
  /-- `LET` is left out. -/
  | assignment {x : String} {e : List Word} {v : Node} (he : expression.Takes e v) :
    Respelling d [.keyword .letWord :: .name x :: .equal :: e] [.name x :: .equal :: e]
  /-- A call gets parentheses. -/
  | call {f : String} {as : List Word} {vs : List Node} (has : (arguments expression).Takes as vs)
    (hsplit : opensAssignment as = false) :
    Respelling d [.name f :: as] [.name f :: .openParen :: (as ++ [.closeParen])]
  /-- So does a call without arguments. -/
  | callNone {f : String} : Respelling d [[.name f]] [[.name f, .openParen, .closeParen]]
  /-- The two ends of a `WHILE` loop. -/
  | endWhile {b : OpenBlock} {outer : List OpenBlock} {guard : Node} (hopen : d.opened = b :: outer)
    (hhead : b.head = .whileLoop guard) :
    Respelling d [[.keyword .wendWord]] [[.keyword .endWord, .keyword .whileWord]]
  /-- Two ends of a `FOR` loop. -/
  | endFor {b : OpenBlock} {outer : List OpenBlock} {x : String} {start limit step : Node}
      {ws ws' : List Word} (hopen : d.opened = b :: outer)
      (hhead : b.head = .forLoop x start limit step) (hws : ws ∈ Words.forEndings x)
      (hws' : ws' ∈ Words.forEndings x) : Respelling d [ws] [ws']
  /-- The end of a `DO` loop; the second way opens two levels more. -/
  | loopUntil {b : OpenBlock} {outer : List OpenBlock} {e : List Word} {v : Node}
      (hopen : d.opened = b :: outer) (hhead : b.head = .doLoop)
      (he : (withRoom (nestingLimit - 2)).expression.Takes e v) :
    Respelling d [.keyword .loopWord :: .keyword .untilWord :: e]
      [.keyword .loopWord :: .keyword .whileWord :: .keyword .notWord :: .openParen ::
        (e ++ [.closeParen])]
  /-- A function of one expression. -/
  | function {f : String} {names : List String} {e : List Word} {v : Node} (hnodup : names.Nodup)
    (hlimit : names.length ≤ itemLimit) (he : expression.Takes e v) :
    Respelling d [.keyword .defunWord :: .name f :: (parameterWords names ++ .equal :: e)]
      [.keyword .functionWord :: .name f :: parameterWords names, .keyword .returnWord :: e,
        [.keyword .endWord, .keyword .functionWord]]

namespace Draft

variable {d : Draft} {b : OpenBlock} {outer : List OpenBlock}

theorem close_of_closedBy {closer : Closer} (hopen : d.opened = b :: outer)
    (hclosed : b.head.closedBy closer = true) :
    d.close closer = .ok (d.leave outer b.closedNode) := by
  rw [close, hopen]
  exact if_pos hclosed

theorem closeFor_of_forLoop {x : String} {start limit step : Node} {named : Option String}
    (hopen : d.opened = b :: outer) (hhead : b.head = .forLoop x start limit step)
    (hnamed : named = none ∨ named = some x) :
    d.closeFor named = .ok (d.leave outer b.closedNode) := by
  simp only [closeFor, hopen, hhead]
  rcases hnamed with rfl | rfl
  · rfl
  · exact if_pos rfl

end Draft

namespace Respelling

open Rule Progress

variable {use : Uses} {p : Progress} {wss wss' : List (List Word)}

/-- Each way to end a `FOR` loop ends it. -/
theorem written_forEnding {b : OpenBlock} {outer : List OpenBlock} {x : String}
    {start limit step : Node} {ws : List Word} (hopen : p.draft.opened = b :: outer)
    (hhead : b.head = .forLoop x start limit step) (hws : ws ∈ Words.forEndings x) :
    Written use [ws] p (p.advance (p.draft.leave outer b.closedNode)) := by
  simp only [Words.forEndings, List.mem_cons, List.not_mem_nil, or_false] at hws
  rcases hws with rfl | rfl | rfl
  · have htakes : statement.Takes [.keyword .nextWord] (.next none) := rfl
    have hclose := Draft.closeFor_of_forLoop hopen hhead (.inl rfl)
    exact written_of_place rfl htakes nofun fun _ => hclose
  · have htakes : statement.Takes [.keyword .nextWord, .name x] (.next (some x)) := rfl
    have hclose := Draft.closeFor_of_forLoop hopen hhead (.inr rfl)
    exact written_of_place rfl htakes nofun fun _ => hclose
  · have htakes : statement.Takes [.keyword .endWord, .keyword .forWord] (.close .endFor) := rfl
    exact written_of_place rfl htakes nofun fun _ =>
      Draft.close_of_closedBy hopen (by rw [hhead]; rfl)

/-- The three lines of a function leave its node. -/
theorem written_function {f : String} {names : List String} {e : List Word} {v : Node}
    (hnodup : names.Nodup) (hlimit : names.length ≤ itemLimit) (he : expression.Takes e v) :
    Written use
      [.keyword .functionWord :: .name f :: parameterWords names, .keyword .returnWord :: e,
      [.keyword .endWord, .keyword .functionWord]] p
      (p.advance (p.draft.attach (.construct (.function f names) [] [.plain .returned [v]]))) := by
  have hend :
      statement.Takes [.keyword .endWord, .keyword .functionWord] (.close .endFunction) := rfl
  refine ⟨[.openClosure .function f names, .giveBack (some v), .close .endFunction],
    .cons (Words.says_of_takes rfl (takes_function hnodup hlimit))
      (.cons (Words.says_of_takes rfl (takes_return he))
        (.cons (Words.says_of_takes rfl hend) .nil)), ?_⟩
  intro line
  refine ⟨_, step_of_place nofun rfl, fun line =>
    ⟨_, step_of_place nofun rfl, fun line => ⟨_, ?_, rfl⟩⟩⟩
  exact step_of_place nofun rfl

/-- Both spellings lead to the same. -/
theorem written (h : Respelling p.draft wss wss') :
    ∃ q, Written use wss p q ∧ Written use wss' p q := by
  cases h with
  | assignment he =>
    exact ⟨_, written_of_place rfl (takes_let he) nofun fun _ => rfl,
      written_of_place rfl (takes_assignment he) nofun fun _ => rfl⟩
  | call has hsplit =>
    exact ⟨_, written_of_place rfl (takes_bareCall has hsplit) nofun fun _ => rfl,
      written_of_place rfl (takes_call has) nofun fun _ => rfl⟩
  | callNone =>
    exact ⟨_, written_of_place rfl takes_call_none nofun fun _ => rfl,
      written_of_place rfl takes_call_empty nofun fun _ => rfl⟩
  | @endWhile b outer guard hopen hhead =>
    have hwend : statement.Takes [.keyword .wendWord] (.close .wend) := rfl
    have hend : statement.Takes [.keyword .endWord, .keyword .whileWord] (.close .endWhile) := rfl
    exact ⟨_, written_of_place rfl hwend nofun fun _ =>
      Draft.close_of_closedBy hopen (by rw [hhead]; rfl),
      written_of_place rfl hend nofun fun _ => Draft.close_of_closedBy hopen (by rw [hhead]; rfl)⟩
  | endFor hopen hhead hws hws' =>
    exact ⟨_, written_forEnding hopen hhead hws, written_forEnding hopen hhead hws'⟩
  | @loopUntil b outer e v hopen hhead he =>
    have hclose : p.draft.closeDo (.operation .not [v]) =
        .ok (p.draft.leave outer (b.node (.operation .not [v]))) := by
      simp only [Draft.closeDo, hopen, hhead]
    have hroom :
        (Level.withRoom (Level.nestingLimit - 2)).Carries (Level.withRoom Level.nestingLimit) :=
      Level.withRoom_carries (Nat.sub_le _ _)
    have huntil : expression.Takes e v := (hroom.expression.takes he).2 [.lineEnd] rfl
    exact ⟨_, written_of_place rfl (takes_until huntil) nofun fun _ => hclose,
      written_of_place rfl (takes_while_not rfl he) nofun fun _ => hclose⟩
  | function hnodup hlimit he =>
    exact ⟨_, written_of_place rfl (takes_defun hnodup hlimit he) nofun fun _ => rfl,
      written_function hnodup hlimit he⟩

end Respelling

/-! ### Texts -/

namespace Reader

variable {catalog : Catalog}

/-- What reading leads to, without the numbers of lines. -/
def unnumbered (read : Reader × List Node) : Draft × List Node := (read.1.draft.unnumbered, read.2)

/-- From drafts that differ in the numbers of lines only, a piece leads to
drafts that do so as well. -/
theorem unnumbered_parse?_congr (s : String) {r r' : Reader}
    (h : r.draft.unnumbered = r'.draft.unnumbered) :
    (r.parse? catalog s).map unnumbered = (r'.parse? catalog s).map unnumbered := by
  have hblind : (uses catalog).Blind := Progress.ofCatalog_blind catalog (catalog.length + 1) []
  have hstart : Progress.unnumbered ⟨r.draft, #[]⟩ = Progress.unnumbered ⟨r'.draft, #[]⟩ :=
    congrArg (Progress.mk · #[]) h
  refine (parse?_unnumbered r s).trans (Eq.trans ?_ (parse?_unnumbered r' s).symm)
  cases statementsOf? s.toList with
  | none => rfl
  | some said =>
    exact congrArg (Option.map _) (Progress.steps_blind hblind r.line r'.line hstart said)

theorem unnumbered_after (nodes : List Node) (x : Option (Reader × List Node)) :
    (x.map fun others => (others.1, nodes ++ others.2)).map unnumbered =
      (x.map unnumbered).map fun others => (others.1, nodes ++ others.2) := by
  rw [Option.map_map, Option.map_map]
  rfl

theorem unnumbered_parseAll?_cons {r : Reader} {s : String} {ss : List String}
    {first : Reader × List Node} (h : r.parse? catalog s = some first) :
    (parseAll? catalog (s :: ss) r).map unnumbered =
      ((parseAll? catalog ss first.1).map unnumbered).map fun others =>
        (others.1, first.2 ++ others.2) := by
  rw [parseAll?, h, Option.bind_some, unnumbered_after]

theorem unnumbered_parseAll?_congr (pieces : List String) {r r' : Reader}
    (h : r.draft.unnumbered = r'.draft.unnumbered) :
    (parseAll? catalog pieces r).map unnumbered = (parseAll? catalog pieces r').map unnumbered := by
  induction pieces generalizing r r' with
  | nil => exact congrArg (fun d => some (d, [])) h
  | cons s ss ih =>
    have hfirst : (r.parse? catalog s).map unnumbered = (r'.parse? catalog s).map unnumbered :=
      unnumbered_parse?_congr s h
    cases hr : r.parse? catalog s with
    | none =>
      rw [hr] at hfirst
      rw [parseAll?, parseAll?, hr, Option.map_eq_none_iff.1 hfirst.symm]
    | some first =>
      rw [hr] at hfirst
      obtain ⟨first', hr', heq⟩ := Option.map_eq_some_iff.1 hfirst.symm
      obtain ⟨hdraft, hnodes⟩ := Prod.mk.inj heq
      rw [unnumbered_parseAll?_cons hr, unnumbered_parseAll?_cons hr', hnodes, ih hdraft.symm]

theorem parseAll?_append (before after : List String) (r : Reader) :
    parseAll? catalog (before ++ after) r = (parseAll? catalog before r).bind fun first =>
      (parseAll? catalog after first.1).map fun others => (others.1, first.2 ++ others.2) := by
  induction before generalizing r with
  | nil => simp [parseAll?]
  | cons s ss ih =>
    rw [List.cons_append, parseAll?, parseAll?]
    cases r.parse? catalog s with
    | none => rfl
    | some first =>
      rw [Option.bind_some, Option.bind_some, ih]
      cases parseAll? catalog ss first.1 with
      | none => rfl
      | some more => simp [Function.comp_def]

theorem parse?_of_piece {s : String} {r : Reader} {q : Progress}
    (h : Reading.piece catalog r.line s r.draft = (q, none)) :
    r.parse? catalog s = some (⟨q.draft, r.line + max 1 (Text.lineCount s)⟩, q.handed.toList) := by
  simp only [parse?, parse, h]

/-- A text after another part of the whole. -/
theorem parse?_joined {before : List String} {first r : Reader} {nodes : List Node}
    (h : parseAll? catalog before first = some (r, nodes)) (s : String) (after : List String) :
    first.parse? catalog (Text.joined (before ++ s :: after)) =
      (parseAll? catalog (s :: after) r).map fun others => (others.1, nodes ++ others.2) := by
  have hpieces : first.parse? catalog (Text.joined (before ++ s :: after)) =
      parseAll? catalog (before ++ s :: after) first := by
    cases before <;> exact (parseAll?_cons ..).symm
  rw [hpieces, parseAll?_append, h, Option.bind_some]

/-- The tree of a program has no numbers of lines. -/
theorem finish_unnumbered (r : Reader) :
    r.finish.toOption = r.draft.unnumbered.finish.toOption := by
  obtain ⟨⟨done, _ | ⟨b, outer⟩⟩, line⟩ := r <;> rfl

theorem bind_finish_congr {x y : Option (Reader × List Node)}
    (h : x.map unnumbered = y.map unnumbered) :
    (x.bind fun read => read.1.finish.toOption) = y.bind fun read => read.1.finish.toOption := by
  have htree (x : Option (Reader × List Node)) : (x.bind fun read => read.1.finish.toOption) =
      (x.map unnumbered).bind fun read => read.1.finish.toOption := by
    cases x with
    | none => rfl
    | some read => exact finish_unnumbered read.1
  rw [htree, htree, h]

end Reader

/-- Texts with two spellings of the same can replace each other. Wherever a draft stands where they
are allowed, in the program or in a module, both can be read, and they lead to the same draft and
the same finished nodes. So two texts of a program that differ in the spelling lead to the same, but
for the numbers of lines, and have the same tree. -/
theorem spellings_read_alike {d : Draft} {s s' : String} {wss wss' : List (List Word)}
    (h : Respelling d wss wss') (hs : Text.wordLines? s = some wss)
    (hs' : Text.wordLines? s' = some wss') :
    (∀ (use : Includer) (line line' : Nat) (handed : Array Node), ∃ q : Progress,
      Reading.text use line s ⟨d, handed⟩ = (q, none) ∧
      Reading.text use line' s' ⟨d, handed⟩ = (q, none)) ∧
    ∀ (catalog : Catalog) (before after : List String) (first r : Reader) (nodes : List Node),
      r.draft = d →
      Reader.parseAll? catalog before first = some (r, nodes) →
      (first.parse? catalog (Text.joined (before ++ s :: after))).map Reader.unnumbered =
        (first.parse? catalog (Text.joined (before ++ s' :: after))).map Reader.unnumbered ∧
      ((first.parse? catalog (Text.joined (before ++ s :: after))).bind fun read =>
        read.1.finish.toOption) =
        (first.parse? catalog (Text.joined (before ++ s' :: after))).bind fun read =>
          read.1.finish.toOption := by
  have hread (use : Includer) (line line' : Nat) (handed : Array Node) : ∃ q : Progress,
      Reading.text use line s ⟨d, handed⟩ = (q, none) ∧
        Reading.text use line' s' ⟨d, handed⟩ = (q, none) := by
    have hwritten : ∃ q, Progress.Written (.ofIncluder use) wss ⟨d, handed⟩ q ∧
        Progress.Written (.ofIncluder use) wss' ⟨d, handed⟩ q := h.written
    obtain ⟨q, hq, hq'⟩ := hwritten
    exact ⟨q, Reading.text_of_written hq hs line, Reading.text_of_written hq' hs' line'⟩
  refine ⟨hread, fun catalog before after first r nodes hd hbefore => ?_⟩
  have hmiddle : (Reader.parseAll? catalog (s :: after) r).map Reader.unnumbered =
      (Reader.parseAll? catalog (s' :: after) r).map Reader.unnumbered := by
    obtain ⟨q, hq, hq'⟩ :=
      hread (Reading.includeModule catalog (catalog.length + 1) []) r.line r.line #[]
    rw [Reader.unnumbered_parseAll?_cons (Reader.parse?_of_piece (hd ▸ hq)),
      Reader.unnumbered_parseAll?_cons (Reader.parse?_of_piece (hd ▸ hq'))]
    exact congrArg _ (Reader.unnumbered_parseAll?_congr after rfl)
  have hwhole : (first.parse? catalog (Text.joined (before ++ s :: after))).map Reader.unnumbered =
      (first.parse? catalog (Text.joined (before ++ s' :: after))).map Reader.unnumbered := by
    rw [Reader.parse?_joined hbefore, Reader.parse?_joined hbefore,
      Reader.unnumbered_after, hmiddle, ← Reader.unnumbered_after]
  exact ⟨hwhole, Reader.bind_finish_congr hwhole⟩

/-- A call whose first argument starts with a parenthesis, inside a loop. -/
theorem spellings_read_alike_group :
    let one : Word := .integer 1
    let as : List Word := [.openParen, one, .closeParen, .plain .plus "+", one, .comma, one]
    let r : Reader := ⟨⟨#[], [⟨.doLoop, 1, #[]⟩]⟩, 2⟩
    Respelling r.draft [.name "F" :: as] [.name "F" :: .openParen :: (as ++ [.closeParen])] ∧
      Text.wordLines? "f (1) + 1, 1" = some [.name "F" :: as] ∧
      Text.wordLines? "F((1)+1,1) ' the same" =
        some [.name "F" :: .openParen :: (as ++ [.closeParen])] ∧
      Reader.parseAll? [] [] r = some (r, []) ∧
      (r.parse? [] "f (1) + 1, 1\nLoop\n").map Reader.unnumbered =
        (r.parse? [] "F((1)+1,1) ' the same\nLoop\n").map Reader.unnumbered := by
  intro one as r
  have has : (Rule.arguments Rule.expression).Takes as
      [.operation .plus [.literal (.int 1), .literal (.int 1)], .literal (.int 1)] := by rfl
  have h :
      Respelling r.draft [.name "F" :: as] [.name "F" :: .openParen :: (as ++ [.closeParen])] :=
    .call has (by decide +kernel)
  have hbare : Text.wordLines? "f (1) + 1, 1" = some [.name "F" :: as] := by decide +kernel
  have hclosed : Text.wordLines? "F((1)+1,1) ' the same" =
      some [.name "F" :: .openParen :: (as ++ [.closeParen])] := by
    decide +kernel
  exact ⟨h, hbare, hclosed, rfl,
    ((spellings_read_alike h hbare hclosed).2 [] [] ["Loop"] r r [] rfl rfl).1⟩

end LineBasic
