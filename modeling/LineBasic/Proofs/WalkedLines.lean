import LineBasic.Proofs.Cursors
import LineBasic.Proofs.Precedence

/-!
# Lines read with a cursor

A walk does on a line what a rule of the grammar does with its tokens. One invariant is carried
along the line: the cursor is inside, and the statement has started at a token before it, or at it,
that is not the end of the text.

* `Walk.Matches`, `Walk.Follows` : a walk ends as a rule does, from one place or from all of them.
* `Walk.Follows.bind`, `Walk.Follows.branch` : walks after each other and one of two.
* `Walk.chainFrom_matches` : a chain stops by itself.
* `LevelWalks.withRoom_follow` : expressions; `Walk.statement_matches` : statements.
-/

namespace LineBasic

/-! ### Walks that follow rules -/

namespace Walk

variable {α β : Type} {c c' : Cursor} {t : Token} {ts : List Token}

/-- How far a walk goes: not past the end of the line, or just past it. -/
inductive Extent where
  | within | whole

/-- Where the cursor is when a rule has left the tokens `rest` of the line. -/
def Extent.Reached : Extent → Cursor → Cursor → List Token → Prop
  | within, c, c', rest => c.OnLine c' ∧ rest = c'.line
  | whole, c, c', _ => c.PastLine c'

theorem Extent.Reached.of_onLine {x : Extent} {c'' : Cursor} {rest : List Token}
    (h : x.Reached c' c'' rest) (honline : c.OnLine c') : x.Reached c c'' rest :=
  match x, h with
  | within, ⟨hmore, hrest⟩ => ⟨honline.trans hmore, hrest⟩
  | whole, hpast => Cursor.PastLine.of_sameLine hpast honline.tokens honline.sameLine

/-- A walk ends as a rule does: with the same value, or with the same fault. -/
inductive Matches (x : Extent) (w : LineWalk α) (c : Cursor) :
    Except SyntaxFault (α × List Token) → Prop
  | ok {a : α} {c' : Cursor} {rest : List Token} (ends : w.EndsIn c (.done a c'))
      (reached : x.Reached c c' rest) :
      Matches x w c (.ok (a, rest))
  | error {f : SyntaxFault} (ends : w.EndsIn c (.fault f)) : Matches x w c (.error f)

/-- From every place in a statement, a walk does what a rule does with the rest of the line. -/
def Follows (x : Extent) (w : LineWalk α) (r : Rule α) : Prop :=
  ∀ c, c.Within → Matches x w c (r c.line)

/-! ### Rules after each other -/

variable {x : Extent} {w w' : LineWalk α} {f : α → LineWalk β} {r r' : Rule α} {g : α → Rule β}

/-- A walk that goes on after one that has stayed on the line. -/
theorem Matches.after {a : α} {result : Except SyntaxFault (β × List Token)}
    (hw : w.EndsIn c (.done a c')) (honline : c.OnLine c') (h : Matches x (f a) c' result) :
    Matches x (w >>= f) c result := by
  cases h with
  | ok ends reached => exact .ok (hw.bind ends) (reached.of_onLine honline)
  | error ends => exact .error (hw.bind ends)

theorem Matches.stay {a : α} {result : Except SyntaxFault (β × List Token)} (hc : c.Within)
    (hw : w.EndsIn c (.done a c)) (h : Matches x (f a) c result) : Matches x (w >>= f) c result :=
  .after hw (.refl hc) h

theorem Follows.bind (hw : Follows .within w r) (hf : ∀ a, Follows x (f a) (g a)) :
    Follows x (w >>= f) (r >>= g) := by
  intro c hc
  rw [Rule.bind_apply]
  have hfirst := hw c hc
  generalize r c.line = result at hfirst
  cases hfirst with
  | error ends => exact .error (ends.bind_fault f)
  | ok ends reached =>
    obtain ⟨honline, rfl⟩ := reached
    exact .after ends honline (hf _ _ honline.within)

theorem Follows.pure (a : α) : Follows .within (Pure.pure a) (Pure.pure a) :=
  fun c hc => .ok (.pure a c) ⟨.refl hc, rfl⟩

theorem Follows.branch {b : Bool} (h : Follows x w r) (h' : Follows x w' r') :
    Follows x (if b = true then w else w') (if b = true then r else r') := by
  cases b
  · exact h'
  · exact h

theorem Follows.fault (f : SyntaxFault) : Follows x (Walk.fault f : LineWalk α) (Rule.fail f) :=
  fun c _ => .error (.fault f c)

/-! ### Tokens on a line -/

theorem faultHere_ends (hc : c.Inside) (f : SyntaxFault) :
    (faultHere f : LineWalk α).EndsIn c (.fault f) := by
  obtain ⟨t, ts, hrest⟩ := hc.exists_next
  exact (peek_ends hc hrest).bind (.fault f c)

theorem faultHere_follows (f : SyntaxFault) : Follows x (faultHere f : LineWalk α) (Rule.fail f) :=
  fun _ hc => .error (faultHere_ends hc.inside f)

theorem check_follows {kind : TokenKind} (hk : kind ≠ .finish) :
    Follows .within (check kind) (Rule.sees kind) := by
  intro c hc
  obtain ⟨t, ts, hrest⟩ := hc.inside.exists_next
  have hends := check_ends (ε := SyntaxFault) hc.inside hrest hk
  rw [← Cursor.peekKind_line hrest] at hends
  exact .ok hends ⟨.refl hc, rfl⟩

theorem matchOne_follows {kind : TokenKind} (hk : kind.endsLine = false) :
    Follows .within (matchOne kind) (Rule.accept kind) := by
  intro c hc
  have hne := TokenKind.ne_finish_of_endsLine hk
  obtain ⟨t, ts, hrest⟩ := hc.inside.exists_next
  by_cases ht : t.kind = kind
  · have hends : t.kind.endsLine = false := ht ▸ hk
    rw [Cursor.line_cons hrest hends, Rule.accept_of_eq ht]
    exact .ok (matchOne_of_eq hc.inside hrest hne ht) ⟨.moved hc hrest hends, rfl⟩
  · rw [Rule.accept_of_ne (by rwa [Cursor.peekKind_line hrest])]
    exact .ok (matchOne_of_ne hc.inside hrest hne ht) ⟨.refl hc, rfl⟩

theorem consume_follows {kind : TokenKind} (hk : kind.endsLine = false) (what : Expectation) :
    Follows .within (consume kind what) (Rule.expect kind what) := by
  intro c hc
  have hne := TokenKind.ne_finish_of_endsLine hk
  obtain ⟨t, ts, hrest⟩ := hc.inside.exists_next
  have hcheck := check_ends (ε := SyntaxFault) hc.inside hrest hne
  by_cases ht : t.kind = kind
  · have hends : t.kind.endsLine = false := ht ▸ hk
    rw [Cursor.line_cons hrest hends, Rule.expect_of_eq ht]
    refine .stay hc hcheck ?_
    simp only [ht, decide_true, if_true]
    exact .ok (advance_ends hc.inside hrest (ht ▸ hne)) ⟨.moved hc hrest hends, rfl⟩
  · have hfault : Rule.expect kind what c.line = .error (.expected what) := by
      have hkind := Cursor.peekKind_line hrest
      cases hline : c.line with
      | nil => rfl
      | cons u us =>
        rw [← hkind, hline] at ht
        exact if_neg ht
    rw [hfault]
    refine .stay hc hcheck ?_
    simp only [ht, decide_false]
    exact .error (faultHere_ends hc.inside _)

theorem consumeName_follows (what : Expectation) :
    Follows .within (consumeName what) (Rule.expectName what) :=
  (consume_follows rfl what).bind fun t => .pure t.lexeme

/-- At the end of a line, the cursor goes past it. -/
theorem endOfStatement_of_endsLine (hc : c.Within) (hrest : c.rest = t :: ts)
    (ht : t.kind.endsLine = true) :
    ∃ c', endOfStatement.EndsIn c (.done () c') ∧ c.PastLine c' := by
  have hend := isAtEnd_ends (ε := SyntaxFault) hc.inside hrest
  rcases TokenKind.eq_of_endsLine ht with hk | hk
  · have hne : t.kind ≠ .finish := by simp [hk]
    refine ⟨c.moved, hend.bind ?_, hc.inside.moved hrest hne, rfl, .inl ?_⟩
    · simp only [hk]
      exact (matchOne_of_eq hc.inside hrest (by decide) hk).bind (.pure () _)
    · rw [Cursor.rest_moved hrest, hrest, Tokens.afterLine, if_pos ht]
  · obtain rfl := (hc.inside.ends_cons hrest).eq_nil hk
    refine ⟨c, hend.bind ?_, hc.inside, rfl, .inr ⟨?_, t, hrest, hk⟩⟩
    · simp only [hk, decide_true, if_true]
      exact .pure () c
    · rw [hrest, Tokens.afterLine, if_pos ht]

/-- The end of the statement at the end of a line, whatever the rule leaves of it. -/
theorem ends_of_endsLine (s : Statement) (hc : c.Within) (hrest : c.rest = t :: ts)
    (ht : t.kind.endsLine = true) (left : List Token) :
    Matches .whole (ends s) c (.ok (s, left)) := by
  obtain ⟨c', hends, hpast⟩ := endOfStatement_of_endsLine hc hrest ht
  exact .ok (hends.bind (.pure s c')) hpast

/-- The end of the statement, and what it says. -/
theorem ends_follows (s : Statement) : Follows .whole (ends s) (do Rule.lineEnd; return s) := by
  intro c hc
  obtain ⟨t, ts, hrest⟩ := hc.inside.exists_next
  have hkind := Cursor.peekKind_line hrest
  rw [Rule.bind_apply, Rule.lineEnd, hkind]
  by_cases ht : t.kind.endsLine = true
  · rw [if_pos ht]
    exact ends_of_endsLine s hc hrest ht c.line
  · have hends : t.kind.endsLine = false := by simpa using ht
    have hfinish := TokenKind.ne_finish_of_endsLine hends
    have hnewline := TokenKind.ne_newline_of_endsLine hends
    have hfault : endOfStatement.EndsIn c (.fault (.trailing t.describe)) := by
      refine (isAtEnd_ends hc.inside hrest).bind ?_
      simp only [hfinish, decide_false]
      refine (matchOne_of_ne hc.inside hrest (by decide) hnewline).bind ?_
      exact (peek_ends hc.inside hrest).bind (faultHere_ends hc.inside _)
    rw [if_neg ht, Cursor.line_cons hrest hends]
    exact .error (hfault.bind_fault _)

/-- A walk that goes by the next token and fails at the end of a line. -/
theorem nextToken_follows {f : Token → LineWalk α} {rule : Rule α}
    (hend : ∀ t, t.kind.endsLine = true → ∃ e, f t = fault e ∧ rule [t] = .error e)
    (hmore : ∀ t, t.kind.endsLine = false → Follows x (f t) fun ts => rule (t :: ts)) :
    Follows x (nextToken >>= f) rule := by
  intro c hc
  obtain ⟨t, ts, hrest⟩ := hc.inside.exists_next
  by_cases ht : t.kind.endsLine = true
  · obtain ⟨e, hwalk, hrule⟩ := hend t ht
    obtain ⟨c', hnext⟩ : ∃ c', (nextToken : LineWalk Token).EndsIn c (.done t c') := by
      by_cases hk : t.kind = .finish
      · exact ⟨c, nextToken_of_finish hc hrest hk⟩
      · exact ⟨c.moved, nextToken_ends hc.inside hrest hk⟩
    rw [Cursor.line_of_endsLine hrest ht, hrule]
    refine .error (hnext.bind ?_)
    rw [hwalk]
    exact .fault e c'
  · have hends : t.kind.endsLine = false := by simpa using ht
    have honline := Cursor.OnLine.moved hc hrest hends
    rw [Cursor.line_cons hrest hends]
    refine .after
      (nextToken_ends hc.inside hrest (TokenKind.ne_finish_of_endsLine hends)) honline ?_
    exact hmore t hends c.moved honline.within

/-! ### Chains and lists -/

/-- A walk passes the operators of a level, and nothing else. -/
structure Passes (sign : LineWalk (Option Operator))
    (operator? : TokenKind → Option Operator) : Prop where
  line : ∀ {k op}, operator? k = some op → k.endsLine = false
  absent : ∀ {c t ts}, c.Inside → c.rest = t :: ts → operator? t.kind = none →
    sign.EndsIn c (.done none c)
  found : ∀ {c t ts op}, c.Inside → c.rest = t :: ts → operator? t.kind = some op →
    sign.EndsIn c (.done (some op) c.moved)

theorem onlySign_passes {kind : TokenKind} {op : Operator} {operator? : TokenKind → Option Operator}
    (hk : kind.endsLine = false) (h : ∀ k, operator? k = if k = kind then some op else none) :
    Passes (onlySign kind op) operator? where
  line {k op'} hop := by
    by_cases hkind : k = kind
    · exact hkind ▸ hk
    · simp [h, hkind] at hop
  absent {c t ts} hc hrest hop := by
    have hne : t.kind ≠ kind := by
      intro ht
      simp [h, ht] at hop
    exact (matchOne_of_ne hc hrest (TokenKind.ne_finish_of_endsLine hk) hne).bind (.pure none c)
  found {c t ts op'} hc hrest hop := by
    by_cases ht : t.kind = kind
    · obtain rfl : op = op' := by simpa [h, ht] using hop
      exact (matchOne_of_eq hc hrest (TokenKind.ne_finish_of_endsLine hk) ht).bind (.pure _ _)
    · simp [h, ht] at hop

theorem signOf_passes {kinds : List TokenKind} {op : TokenKind → Operator}
    {operator? : TokenKind → Option Operator} (hk : ∀ k ∈ kinds, k.endsLine = false)
    (h : ∀ k, operator? k = if k ∈ kinds then some (op k) else none) :
    Passes (signOf kinds op) operator? where
  line {k op'} hop := by
    by_cases hkind : k ∈ kinds
    · exact hk k hkind
    · simp [h, hkind] at hop
  absent {c t ts} hc hrest hop := by
    have hnot : t.kind ∉ kinds := by
      intro ht
      simp [h, ht] at hop
    exact (matchEither_of_not_mem hc hrest
      (fun k hk' => TokenKind.ne_finish_of_endsLine (hk k hk')) hnot).bind
      (.pure none c)
  found {c t ts op'} hc hrest hop := by
    by_cases ht : t.kind ∈ kinds
    · obtain rfl : op t.kind = op' := by simpa [h, ht] using hop
      have hmoved := hc.moved hrest (TokenKind.ne_finish_of_endsLine (hk _ ht))
      refine (matchEither_of_mem hc hrest
        (fun k hk' => TokenKind.ne_finish_of_endsLine (hk k hk')) ht).bind ?_
      exact (previous_moved hmoved hrest).bind (.pure _ _)
    · simp [h, ht] at hop

/-- A chain stops by itself, because every operator takes a token. -/
theorem chainFrom_matches {operand : LineWalk Node} {rule : Rule Node}
    {sign : LineWalk (Option Operator)} {operator? : TokenKind → Option Operator}
    (hoperand : Follows .within operand rule) (hsign : Passes sign operator?) {turns fuel : Nat}
    (left : Node) (hc : c.Within) (hturns : c.rest.length ≤ turns) (hfuel : c.line.length ≤ fuel) :
    Matches .within (chainFrom operand sign turns left) c
      (Rule.leftChainFrom rule operator? fuel left c.line) := by
  induction turns generalizing fuel left c with
  | zero =>
    exact absurd (List.length_eq_zero_iff.1 (Nat.le_zero.1 hturns)) hc.inside.rest_ends.ne_nil
  | succ turns ih =>
    obtain ⟨t, ts, hrest⟩ := hc.inside.exists_next
    have hkind := Cursor.peekKind_line hrest
    cases hop : operator? t.kind with
    | none =>
      rw [Rule.leftChainFrom_of_none (hkind ▸ hop)]
      exact .stay hc (hsign.absent hc.inside hrest hop) (.ok (.pure left c) ⟨.refl hc, rfl⟩)
    | some op =>
      have hends := hsign.line hop
      have honline := Cursor.OnLine.moved hc hrest hends
      -- the operator is passed, so that fewer tokens are left for both bounds
      have hrestLength : c.moved.rest.length < c.rest.length := by
        rw [Cursor.rest_moved hrest, hrest]
        exact Nat.lt_succ_self _
      rw [Cursor.line_cons hrest hends] at hfuel ⊢
      cases fuel with
      | zero => cases hfuel
      | succ fuel =>
        simp only [Rule.leftChainFrom, hop]
        refine .after (hsign.found hc.inside hrest hop) honline ?_
        have hfirst := hoperand c.moved honline.within
        generalize rule c.moved.line = result at hfirst
        cases hfirst with
        | error ends => exact .error (ends.bind_fault _)
        | @ok right c' rest ends reached =>
          obtain ⟨hmore, rfl⟩ := reached
          have hturns' : c'.rest.length ≤ turns := by
            have hle := hmore.length_rest_le
            omega
          have hfuel' : c'.line.length ≤ fuel :=
            hmore.length_line_le.trans (Nat.le_of_succ_le_succ hfuel)
          exact .after ends hmore (ih _ hmore.within hturns' hfuel')

theorem chain_follows {operand : LineWalk Node} {rule : Rule Node}
    {sign : LineWalk (Option Operator)} {operator? : TokenKind → Option Operator}
    (hoperand : Follows .within operand rule) (hsign : Passes sign operator?) :
    Follows .within (chain operand sign) (Rule.leftChain rule operator?) := by
  refine hoperand.bind fun left c hc => ?_
  rw [Rule.bind_ok (show (get : Rule (List Token)) c.line = .ok (c.line, c.line) from rfl)]
  refine .stay hc (here_ends hc.inside) ?_
  exact chainFrom_matches hoperand hsign left hc (Nat.le_of_eq c.length_rest) (Nat.le_refl _)

theorem commaItems_follows (h : Follows .within w r) (tooMany : SyntaxFault) (limit : Nat) :
    Follows .within (commaItems w tooMany limit) (Rule.commaItems r tooMany limit) := by
  induction limit with
  | zero => exact faultHere_follows tooMany
  | succ limit ih =>
    exact h.bind fun a => (matchOne_follows rfl).bind fun _ =>
      .branch (ih.bind fun as => .pure (a :: as)) (.pure [a])

theorem arguments_follows {w : LineWalk Node} {r : Rule Node} (h : Follows .within w r) :
    Follows .within (arguments w) (Rule.arguments r) := commaItems_follows h _ _

theorem enclosed_follows {w : LineWalk Node} {r : Rule Node} (h : Follows .within w r)
    {closing : TokenKind} (hclosing : closing.endsLine = false) (what : Expectation) :
    Follows .within (enclosed w closing what) (Rule.enclosed r closing what) := by
  have hclose (items : List Node) : Follows .within (do let _ ← consume closing what; return items)
      (do let _ ← Rule.expect closing what; return items) :=
        (consume_follows hclosing what).bind fun _ => .pure items
  exact (check_follows (TokenKind.ne_finish_of_endsLine hclosing)).bind fun _ =>
    .branch ((Follows.pure []).bind hclose) ((arguments_follows h).bind hclose)

end Walk

/-! ### Expressions -/

namespace LevelWalks

open Walk

/-- The walks of a level follow its rules. -/
structure Follow (walks : LevelWalks) (level : Level) : Prop where
  expression : Follows .within walks.expression level.expression
  negation : Follows .within walks.negation level.negation
  unary : Follows .within walks.unary level.unary

namespace Follow

variable {walks : LevelWalks} {level : Level}

theorem floor : Follow LevelWalks.floor Level.floor :=
  ⟨faultHere_follows .tooDeep, faultHere_follows .tooDeep, faultHere_follows .tooDeep⟩

variable (h : Follow walks level)
include h

theorem conditional : Follows .within walks.conditional level.conditional :=
  h.expression.bind fun _ => (consume_follows rfl .chooseThen).bind fun _ =>
    h.expression.bind fun _ =>
    (consume_follows rfl .chooseElse).bind fun _ => h.expression.bind fun _ => .pure _

theorem named (name : String) : Follows .within (walks.named name) (level.named name) :=
  (matchOne_follows rfl).bind fun _ =>
    .branch ((enclosed_follows h.expression rfl .argumentsClose).bind fun _ => .pure _) (.pure _)

theorem group : Follows .within walks.group level.group :=
  h.expression.bind fun e => (consume_follows rfl .groupClose).bind fun _ => .pure e

theorem elements : Follows .within walks.elements level.elements :=
  (enclosed_follows h.expression rfl .elementsClose).bind fun _ => .pure _

theorem primary : Follows .within walks.primary level.primary := by
  refine nextToken_follows (fun t ht => ⟨.noExpression t.describe, ?_⟩) fun t ht => ?_
  · rcases TokenKind.eq_of_endsLine ht with hk | hk <;> simp only [Level.primary, hk, and_self]
  · obtain ⟨kind, lexeme, line, column, value⟩ := t
    cases kind
    case integer => exact .pure _
    case decimal => exact .pure _
    case text => exact .pure _
    case name => exact h.named lexeme
    case leftParen => exact h.group
    case leftBrace => exact h.elements
    case word w =>
      cases w
      case ifWord => exact h.conditional
      all_goals exact .fault _
    all_goals exact .fault _

theorem unaryWalk : Follows .within walks.unaryWalk level.unaryRule :=
  (matchOne_follows rfl).bind fun _ => .branch (h.unary.bind fun _ => .pure _) h.primary

theorem powerWalk : Follows .within walks.powerWalk level.powerRule :=
  chain_follows h.unaryWalk (onlySign_passes rfl fun k => by cases k <;> rfl)

theorem factorWalk : Follows .within walks.factorWalk level.factorRule := by
  refine chain_follows h.powerWalk (signOf_passes (by decide) fun k => ?_)
  cases k
  case word w => cases w <;> rfl
  all_goals rfl

theorem termWalk : Follows .within walks.termWalk level.termRule :=
  chain_follows h.factorWalk (signOf_passes (by decide) fun k => by cases k <;> rfl)

theorem conversionWalk : Follows .within walks.conversionWalk level.conversionRule := by
  refine chain_follows h.termWalk (onlySign_passes rfl fun k => ?_)
  cases k
  case word w => cases w <;> rfl
  all_goals rfl

theorem comparisonWalk : Follows .within walks.comparisonWalk level.comparisonRule :=
  chain_follows h.conversionWalk (signOf_passes (by decide) fun k => by cases k <;> rfl)

theorem negationWalk : Follows .within walks.negationWalk level.negationRule :=
  (matchOne_follows rfl).bind fun _ => .branch (h.negation.bind fun _ => .pure _) h.comparisonWalk

theorem logicWalk : Follows .within walks.logicWalk level.logicRule := by
  refine chain_follows h.negationWalk (signOf_passes (by decide) fun k => ?_)
  cases k
  case word w => cases w <;> rfl
  all_goals rfl

theorem above : Follow walks.above level.above := ⟨h.logicWalk, h.negationWalk, h.unaryWalk⟩

end Follow

theorem withRoom_follow (room : Nat) : Follow (withRoom room) (Level.withRoom room) := by
  induction room with
  | zero => exact .floor
  | succ room ih => exact ih.above

end LevelWalks

/-! ### Statements -/

/-- A rule whose result is changed by a function is a rule and a return. -/
theorem Rule.map_eq {α β : Type} (r : Rule α) (f : α → β) :
    (fun ts => (r ts).map fun x => (f x.1, x.2)) = (do let a ← r; return f a : Rule β) := by
  funext ts
  rw [bind_apply]
  cases r ts <;> rfl

namespace Walk

variable {c : Cursor} {t name : Token} {ts : List Token}

theorem expression_follows : Follows .within expression Rule.expression :=
  (LevelWalks.withRoom_follow Level.nestingLimit).expression

theorem ends_follows_lineEnd (s : Statement) :
    Follows .whole (ends s) fun ts => (Rule.lineEnd ts).map fun r => (s, r.2) := by
  rw [Rule.map_eq Rule.lineEnd fun _ => s]
  exact ends_follows s

theorem assignment_follows (name : String) :
    Follows .whole (assignment name) (Rule.assignment name) :=
  expression_follows.bind fun _ => ends_follows _

theorem letStatement_follows : Follows .whole letStatement Rule.letStatement :=
  (consumeName_follows .letName).bind fun name => (consume_follows rfl .letEqual).bind fun _ =>
    assignment_follows name

theorem declaredSize_follows : Follows .within declaredSize Rule.declaredSize :=
  (matchOne_follows rfl).bind fun _ =>
    .branch (expression_follows.bind fun _ => (consume_follows rfl .dimSizeClose).bind fun _ =>
      .pure _) (.pure _)

theorem dimStatement_follows : Follows .whole dimStatement Rule.dimStatement :=
  (consumeName_follows .dimName).bind fun _ => declaredSize_follows.bind fun _ =>
    (consume_follows rfl .dimAs).bind fun _ => (consumeName_follows .dimType).bind fun _ =>
      ends_follows _

theorem condition_follows (what : Expectation) (make : Node → Statement) :
    Follows .whole (condition what make) fun ts => (Rule.condition what ts).map fun r =>
      (make r.1, r.2) := by
  rw [Rule.map_eq (Rule.condition what) make]
  simp only [Rule.condition, bind_assoc, pure_bind]
  exact expression_follows.bind fun guard => (consume_follows rfl what).bind fun _ =>
    ends_follows (make guard)

theorem endStatement_follows : Follows .whole endStatement Rule.endStatement := by
  refine nextToken_follows (fun t ht => ⟨.expected .endOfWhat, ?_⟩) fun t _ => ?_
  · rcases TokenKind.eq_of_endsLine ht with hk | hk <;>
      simp only [Rule.endStatement, Rule.closerOf, hk, and_self]
  · simp only [Rule.endStatement]
    cases Rule.closerOf t.kind with
    | none => exact .fault _
    | some closer => exact ends_follows_lineEnd (.close closer)

theorem whileStatement_follows : Follows .whole whileStatement (do
    let guard ← Rule.expression
    Rule.lineEnd
    return Statement.openWhile guard) := expression_follows.bind fun _ => ends_follows _

theorem untilGuard_follows : Follows .within untilGuard Rule.untilGuard :=
  (matchOne_follows rfl).bind fun _ => .branch (expression_follows.bind fun _ => .pure _) (.pure _)

theorem loopGuard_follows : Follows .within loopGuard Rule.loopGuard :=
  (matchOne_follows rfl).bind fun _ => .branch expression_follows untilGuard_follows

theorem loopStatement_follows : Follows .whole loopStatement Rule.loopStatement :=
  loopGuard_follows.bind fun _ => ends_follows _

theorem stepOf_follows : Follows .within stepOf Rule.stepOf :=
  (matchOne_follows rfl).bind fun _ => .branch expression_follows (.pure _)

theorem forStatement_follows : Follows .whole forStatement Rule.forStatement :=
  (consumeName_follows .forName).bind fun _ => (consume_follows rfl .forEqual).bind fun _ =>
    expression_follows.bind fun _ => (consume_follows rfl .forTo).bind fun _ =>
      expression_follows.bind fun _ => stepOf_follows.bind fun _ => ends_follows _

theorem nextStatement_follows : Follows .whole nextStatement Rule.nextStatement := by
  intro c hc
  obtain ⟨t, ts, hrest⟩ := hc.inside.exists_next
  refine .stay hc (check_ends hc.inside hrest (by decide)) ?_
  by_cases hk : t.kind = .name
  · have hends : t.kind.endsLine = false := by rw [hk]; rfl
    have honline := Cursor.OnLine.moved hc hrest hends
    rw [Cursor.line_cons hrest hends]
    simp only [Rule.nextStatement, hk, decide_true, if_true]
    refine .after (advance_ends hc.inside hrest (by simp [hk])) honline ?_
    exact ends_follows_lineEnd _ _ honline.within
  · have hrule : Rule.nextStatement c.line = (Rule.lineEnd c.line).map fun r =>
      (.next none, r.2) := by
      have hkind := Cursor.peekKind_line hrest
      cases hline : c.line with
      | nil => rfl
      | cons u us =>
        rw [← hkind, hline] at hk
        exact if_neg hk
    simp only [hrule, hk, decide_false]
    exact ends_follows_lineEnd _ c hc

theorem parameterNames_follow (limit : Nat) (seen : List String) :
    Follows .within (parameterNames limit seen) (Rule.parameterNames limit seen) := by
  induction limit generalizing seen with
  | zero => exact faultHere_follows .tooManyParameters
  | succ limit ih =>
    refine (consumeName_follows .parameterName).bind fun name => .branch (.fault _) ?_
    exact (matchOne_follows rfl).bind fun _ =>
      .branch ((ih (name :: seen)).bind fun _ => .pure _) (.pure _)

theorem parameters_follow : Follows .within parameters Rule.parameters := by
  have hclose (names : List String) :
      Follows .within (do let _ ← consume .rightParen .parametersClose; return names)
      (do let _ ← Rule.expect .rightParen .parametersClose; return names) :=
    (consume_follows rfl .parametersClose).bind fun _ => .pure names
  exact (check_follows (by decide)).bind fun _ =>
    .branch ((Follows.pure []).bind hclose) ((parameterNames_follow Rule.itemLimit []).bind hclose)

theorem closureStatement_follows (kind : ClosureKind) :
    Follows .whole (closureStatement kind) (Rule.closureStatement kind) :=
  (consumeName_follows _).bind fun name => (matchOne_follows rfl).bind fun _ =>
    .branch (parameters_follow.bind fun params => ends_follows (.openClosure kind name params))
      ((Follows.pure []).bind fun params => ends_follows (.openClosure kind name params))

theorem defunStatement_follows : Follows .whole defunStatement Rule.defunStatement :=
  (consumeName_follows .defunName).bind fun _ => (consume_follows rfl .defunOpen).bind fun _ =>
    parameters_follow.bind fun _ => (consume_follows rfl .defunEqual).bind fun _ =>
      expression_follows.bind fun _ => ends_follows _

theorem returnStatement_follows : Follows .whole returnStatement Rule.returnStatement := by
  intro c hc
  obtain ⟨t, ts, hrest⟩ := hc.inside.exists_next
  refine .stay hc (atStatementEnd_ends hc.inside hrest) ?_
  rw [Rule.returnStatement, Cursor.peekKind_line hrest]
  by_cases ht : t.kind.endsLine = true
  · simp only [ht, if_true]
    exact ends_of_endsLine _ hc hrest ht _
  · simp only [ht]
    exact Follows.bind expression_follows (fun value => ends_follows (.giveBack (some value))) c hc

theorem jumpStatement_follows (j : Jump) :
    Follows .whole (jumpStatement j) (Rule.jumpStatement j) := by
  refine nextToken_follows (fun t ht => ⟨.expected (.loopKind j.word), ?_⟩) fun t _ => ?_
  · rcases TokenKind.eq_of_endsLine ht with hk | hk <;>
      simp only [Rule.jumpStatement, Rule.loopKindOf, hk, and_self]
  · simp only [Rule.jumpStatement]
    cases Rule.loopKindOf t.kind with
    | none => exact .fault _
    | some kind => exact ends_follows_lineEnd (.jump j kind)

theorem useStatement_follows : Follows .whole useStatement Rule.useStatement :=
  (consumeName_follows .moduleName).bind fun _ => ends_follows _

theorem expressionStatement_follows : Follows .whole expressionStatement Rule.expressionStatement :=
  expression_follows.bind fun _ => ends_follows _

theorem bareCall_follows (name : String) : Follows .whole (bareCall name) (Rule.bareCall name) :=
  (arguments_follows expression_follows).bind fun _ => ends_follows _

/-! ### Statements that start with a name -/

theorem elementAssignment_matches (name : String) (hc : c.Within) (hrest : c.rest = t :: ts)
    (ht : t.kind = .leftParen) :
    Matches .whole (elementAssignment name) c (Rule.elementAssignment name c.moved.line) := by
  have hends : t.kind.endsLine = false := by rw [ht]; rfl
  have honline := Cursor.OnLine.moved hc hrest hends
  refine .after (matchOne_of_eq hc.inside hrest (by decide) ht) honline ?_
  exact Follows.bind expression_follows (fun _ => (consume_follows rfl .elementClose).bind fun _ =>
    (consume_follows rfl .elementEqual).bind fun _ => expression_follows.bind fun _ =>
      ends_follows _) _ honline.within

theorem callStatement_matches (name : String) (hc : c.Within) (hrest : c.rest = t :: ts)
    (ht : t.kind = .leftParen) :
    Matches .whole (callStatement name) c (Rule.callStatement name c.moved.line) := by
  have hends : t.kind.endsLine = false := by rw [ht]; rfl
  have honline := Cursor.OnLine.moved hc hrest hends
  refine .after (advance_ends hc.inside hrest (TokenKind.ne_finish_of_endsLine hends)) honline ?_
  exact Follows.bind (enclosed_follows expression_follows rfl .argumentsClose)
    (fun _ => ends_follows _) _
    honline.within

/-- A line that is an expression is read from its first token on, to which the
walk has stepped back. -/
theorem stepBack_matches (hc : c.Within) (hstart : c.place = c.start) (hrest : c.rest = t :: ts)
    (ht : t.kind.endsLine = false) :
    Matches .whole (do stepBack; expressionStatement) c.moved
      (Rule.expressionStatement (t :: c.moved.line)) := by
  have hback := stepBack_ends (ε := SyntaxFault) hc.inside hstart
  have hstatement := expressionStatement_follows c hc
  rw [Cursor.line_cons hrest ht] at hstatement
  generalize Rule.expressionStatement (t :: c.moved.line) = result at hstatement ⊢
  cases hstatement with
  | error ends => exact .error (hback.bind ends)
  | ok ends reached =>
    exact .ok (hback.bind ends)
      (Cursor.PastLine.of_sameLine reached rfl (Cursor.afterLine_moved hrest ht).symm)

section Named

variable (hc : c.Within) (hstart : c.place = c.start) (hrest : c.rest = name :: ts)
  (hname : name.kind.endsLine = false)
include hc hstart hrest hname

theorem nameStatement_matches :
    Matches .whole (nameStatement name.lexeme) c.moved (Rule.nameStatement name c.moved.line) := by
  have hmoved := (Cursor.OnLine.moved hc hrest hname).within
  obtain ⟨t, ts, hnext⟩ := hmoved.inside.exists_next
  refine .stay hmoved (atStatementEnd_ends hmoved.inside hnext) ?_
  rw [Rule.nameStatement, Cursor.peekKind_line hnext]
  by_cases ht : t.kind.endsLine = true
  · simp only [ht, if_true]
    exact ends_of_endsLine _ hmoved hnext ht _
  · simp only [ht]
    refine .stay hmoved (peek_ends hmoved.inside hnext) ?_
    by_cases hstarts : Rule.startsExpression t.kind = true
    · simp only [hstarts, if_true]
      exact bareCall_follows name.lexeme _ hmoved
    · simp only [hstarts]
      exact stepBack_matches hc hstart hrest hname

theorem namedStatement_matches :
    Matches .whole (namedStatement name.lexeme) c.moved
      (Rule.namedStatement name c.moved.line) := by
  have hmoved := (Cursor.OnLine.moved hc hrest hname).within
  have hplain := nameStatement_matches hc hstart hrest hname
  obtain ⟨t, ts, hnext⟩ := hmoved.inside.exists_next
  by_cases hequal : t.kind = .equal
  · have hends : t.kind.endsLine = false := by rw [hequal]; rfl
    have honline := Cursor.OnLine.moved hmoved hnext hends
    rw [Cursor.line_cons hnext hends]
    simp only [Rule.namedStatement, hequal]
    refine .after (matchOne_of_eq hmoved.inside hnext (by decide) hequal) honline ?_
    exact assignment_follows name.lexeme _ honline.within
  · refine .stay hmoved (matchOne_of_ne hmoved.inside hnext (by decide) hequal) ?_
    refine .stay hmoved (check_ends hmoved.inside hnext (by decide)) ?_
    by_cases hopen : t.kind = .leftParen
    · have hends : t.kind.endsLine = false := by rw [hopen]; rfl
      have hline := Cursor.line_cons hnext hends
      simp only [hopen, decide_true, if_true]
      refine .stay hmoved (kindAfterClosing_ends hmoved.inside hnext hopen) ?_
      simp only [hline, Rule.namedStatement, hopen] at hplain ⊢
      cases Rule.afterClosing 1 c.moved.moved.line with
      | none => exact hplain
      | some after =>
        simp only [Option.map_some]
        by_cases hafter : Rule.peekKind after = .equal
        · simp only [hafter, if_true]
          exact elementAssignment_matches _ hmoved hnext hopen
        · by_cases hlast : (Rule.peekKind after).endsLine = true
          · simp only [hafter, hlast, if_false, if_true]
            exact callStatement_matches _ hmoved hnext hopen
          · simp only [hafter, hlast, if_false]
            exact hplain
    · have hrule :
          Rule.namedStatement name c.moved.line = Rule.nameStatement name c.moved.line := by
        have hkind := Cursor.peekKind_line hnext
        cases hline : c.moved.line with
        | nil => rfl
        | cons u us =>
          rw [hline] at hkind
          have hu : u.kind = t.kind := hkind
          simp only [Rule.namedStatement, hu]
      simp only [hrule, hopen, decide_false]
      exact hplain

end Named

/-- The walk over a statement, from its first token on. -/
theorem statement_matches (hc : c.Within) (hstart : c.place = c.start) (hrest : c.rest = t :: ts)
    (ht : t.kind.endsLine = false) : Matches .whole statement c (Rule.statement c.line) := by
  have honline := Cursor.OnLine.moved hc hrest ht
  have hmoved := honline.within
  have hnamed := namedStatement_matches hc hstart hrest ht
  have hexpression := stepBack_matches hc hstart hrest ht
  rw [Cursor.line_cons hrest ht]
  refine .after (advance_ends hc.inside hrest (TokenKind.ne_finish_of_endsLine ht)) honline ?_
  obtain ⟨kind, lexeme, line, column, value⟩ := t
  clear ht
  cases kind
  case name => exact hnamed
  case word w =>
    cases w
    case letWord => exact letStatement_follows _ hmoved
    case dimWord => exact dimStatement_follows _ hmoved
    case ifWord => exact condition_follows .ifThen .openIf _ hmoved
    case elseIfWord => exact condition_follows .elseIfThen .elseIf _ hmoved
    case elseWord => exact ends_follows_lineEnd _ _ hmoved
    case endWord => exact endStatement_follows _ hmoved
    case whileWord => exact whileStatement_follows _ hmoved
    case wendWord => exact ends_follows_lineEnd _ _ hmoved
    case doWord => exact ends_follows_lineEnd _ _ hmoved
    case loopWord => exact loopStatement_follows _ hmoved
    case forWord => exact forStatement_follows _ hmoved
    case nextWord => exact nextStatement_follows _ hmoved
    case subWord => exact closureStatement_follows _ _ hmoved
    case functionWord => exact closureStatement_follows _ _ hmoved
    case defunWord => exact defunStatement_follows _ hmoved
    case returnWord => exact returnStatement_follows _ hmoved
    case exitWord => exact jumpStatement_follows _ _ hmoved
    case continueWord => exact jumpStatement_follows _ _ hmoved
    case useWord => exact useStatement_follows _ hmoved
    all_goals exact hexpression
  all_goals exact hexpression

end Walk

end LineBasic
