import LineBasic.Proofs.WellFormed
import Mathlib.Data.List.Forall2

/-!
# What the rules of the grammar give

Every rule keeps one contract, `Rule.Reads P`. On tokens whose names are words, what it
gives satisfies `P`, and what it leaves is a suffix of the tokens. On tokens that differ
only in their places, or in whether the line ends with a newline or with the text, it gives
the same, or fails on both.

* `Token.Alike` : tokens that no rule tells apart.
* `Rule.Reads` : the contract, with one lemma for each way to build rules.
* `Rule.expression_reads` : expressions are built by the rules of `Node.Expression`.
* `Rule.statement_reads` : statements are `Statement.Proper`.
-/

namespace LineBasic

/-! ### Tokens that read the same -/

theorem TokenKind.endsLine_iff {k : TokenKind} :
    k.endsLine = true ↔ k = .newline ∨ k = .finish := by
  cases k <;> simp [endsLine]

namespace Token

/-- The text of a name is a word. -/
def Worded (t : Token) : Prop := t.kind = .name → Text.isWord t.lexeme = true

/-- Both tokens end a line, or they differ in their places only. -/
def Alike (t u : Token) : Prop :=
  (t.kind.endsLine = true ∧ u.kind.endsLine = true) ∨
    (t.kind = u.kind ∧ t.lexeme = u.lexeme ∧ t.value = u.value)

theorem Alike.refl (t : Token) : t.Alike t := .inr ⟨rfl, rfl, rfl⟩

/-- What does not tell the two ends of a line apart, does not tell alike tokens apart. -/
theorem Alike.kind_congr {t u : Token} {α : Type} (h : t.Alike u) (f : TokenKind → α)
    (hf : f .newline = f .finish) : f t.kind = f u.kind := by
  rcases h with ⟨ht, hu⟩ | ⟨hk, -, -⟩
  · rcases TokenKind.endsLine_iff.1 ht with ht | ht <;>
      rcases TokenKind.endsLine_iff.1 hu with hu | hu <;> simp [ht, hu, hf]
  · rw [hk]

theorem Alike.endsLine_eq {t u : Token} (h : t.Alike u) : t.kind.endsLine = u.kind.endsLine :=
  h.kind_congr TokenKind.endsLine rfl

theorem Alike.kind_iff {t u : Token} {k : TokenKind} (h : t.Alike u) (hk : k.endsLine = false) :
    t.kind = k ↔ u.kind = k := by
  have hne : TokenKind.newline ≠ k ∧ TokenKind.finish ≠ k := by
    constructor <;> (rintro rfl; simp [TokenKind.endsLine] at hk)
  exact iff_of_eq (h.kind_congr (fun l => l = k) (by simp [hne.1, hne.2]))

theorem Alike.same {t u : Token} (h : t.Alike u) (ht : t.kind.endsLine = false) :
    t.kind = u.kind ∧ t.lexeme = u.lexeme ∧ t.value = u.value := by
  rcases h with ⟨ht', -⟩ | h
  · simp [ht'] at ht
  · exact h

end Token

namespace Tokens

/-- Lists of alike tokens. -/
abbrev Alike (ts us : List Token) : Prop := List.Forall₂ Token.Alike ts us

/-- The text of every name is a word. -/
def Worded (ts : List Token) : Prop := ∀ t ∈ ts, t.Worded

theorem Alike.refl (ts : List Token) : Alike ts ts := List.forall₂_same.2 fun t _ => .refl t

theorem Worded.suffix {ts rest : List Token} (h : Worded ts) (hs : rest <:+ ts) : Worded rest :=
  fun t ht => h t (hs.subset ht)

theorem Worded.tail {t : Token} {ts : List Token} (h : Worded (t :: ts)) : Worded ts :=
  h.suffix (List.suffix_cons t ts)

theorem Alike.peekKind_congr {ts us : List Token} {α : Type} (h : Alike ts us)
    (f : TokenKind → α) (hf : f .newline = f .finish) :
    f (Rule.peekKind ts) = f (Rule.peekKind us) := by
  cases h with
  | nil => rfl
  | cons ht _ => exact ht.kind_congr f hf

end Tokens

/-! ### The contract of a rule -/

namespace Rule

open Tokens

variable {α β : Type} {P : α → Prop} {Q : β → Prop} {ts us : List Token}

/-- Two ends of a rule that started with `ts` and with alike tokens. -/
inductive Agrees (P : α → Prop) (ts : List Token) :
    Except SyntaxFault (α × List Token) → Except SyntaxFault (α × List Token) → Prop
  | ok {a : α} {rest rest' : List Token} (ha : P a) (hs : rest <:+ ts) (hr : Alike rest rest') :
      Agrees P ts (.ok (a, rest)) (.ok (a, rest'))
  | error (f g : SyntaxFault) : Agrees P ts (.error f) (.error g)

/-- What the rule gives satisfies `P`, and alike tokens give the same. -/
def Reads (P : α → Prop) (r : Rule α) : Prop :=
  ∀ ⦃ts us : List Token⦄, Worded ts → Alike ts us → Agrees P ts (r ts) (r us)

theorem Agrees.suffix {x y : Except SyntaxFault (α × List Token)} {ts ts' : List Token}
    (h : Agrees P ts x y) (hs : ts <:+ ts') : Agrees P ts' x y := by
  cases h with
  | ok ha hs' hr => exact .ok ha (hs'.trans hs) hr
  | error f g => exact .error f g

theorem Agrees.cons {x y : Except SyntaxFault (α × List Token)} (t : Token)
    (h : Agrees P ts x y) : Agrees P (t :: ts) x y :=
  h.suffix (List.suffix_cons t ts)

/-- The two ends of a rule on alike tokens. -/
theorem Reads.ends {r : Rule α} (hr : Reads P r) (hw : Worded ts) (ha : Alike ts us) :
    (∃ a rest rest', r ts = .ok (a, rest) ∧ r us = .ok (a, rest') ∧ P a ∧ rest <:+ ts ∧
      Alike rest rest') ∨ ∃ f g, r ts = .error f ∧ r us = .error g := by
  have h := hr hw ha
  generalize r ts = x at h
  generalize r us = y at h
  cases h with
  | ok hP hs hrest => exact .inl ⟨_, _, _, rfl, rfl, hP, hs, hrest⟩
  | error f g => exact .inr ⟨f, g, rfl, rfl⟩

theorem bind_apply (r : Rule α) (f : α → Rule β) (ts : List Token) :
    (r >>= f) ts = match r ts with
      | .ok (a, rest) => f a rest
      | .error e => .error e := by
  show (do let (a, s) ← r ts; f a s : Except SyntaxFault (β × List Token)) = _
  cases r ts <;> rfl

theorem pure_apply (a : α) (ts : List Token) : (pure a : Rule α) ts = .ok (a, ts) := rfl

theorem Reads.pure {a : α} (h : P a) : Reads P (Pure.pure a) :=
  fun ts _ _ ha => .ok h (List.suffix_refl ts) ha

theorem Reads.fail (f : SyntaxFault) : Reads P (Rule.fail f) := fun _ _ _ _ => .error f f

theorem Reads.bind {r : Rule α} {f : α → Rule β} (hr : Reads P r)
    (hf : ∀ a, P a → Reads Q (f a)) : Reads Q (r >>= f) := by
  intro ts us hw ha
  rw [bind_apply, bind_apply]
  obtain ⟨a, rest, rest', hts, hus, hP, hs, hrest⟩ | ⟨e, e', hts, hus⟩ := hr.ends hw ha
  · rw [hts, hus]
    exact (hf a hP (hw.suffix hs) hrest).suffix hs
  · rw [hts, hus]
    exact .error e e'

/-- A rule whose result is changed by a function. -/
theorem Reads.map {r : Rule α} (f : α → β) (hr : Reads P r) (hf : ∀ a, P a → Q (f a)) :
    Reads Q fun ts => (r ts).map fun x => (f x.1, x.2) := by
  intro ts us hw ha
  show Agrees Q ts ((r ts).map _) ((r us).map _)
  obtain ⟨a, rest, rest', hts, hus, hP, hs, hrest⟩ | ⟨e, e', hts, hus⟩ := hr.ends hw ha
  · rw [hts, hus]
    exact .ok (hf a hP) hs hrest
  · rw [hts, hus]
    exact .error e e'

theorem Reads.branch {b : Bool} {r s : Rule α} (hr : Reads P r) (hs : Reads P s) :
    Reads P (if b = true then r else s) := by
  cases b
  · exact hs
  · exact hr

/-! ### Single tokens -/

theorem accept_reads {k : TokenKind} (hk : k.endsLine = false) :
    Reads (fun _ => True) (accept k) := by
  intro ts us _ ha
  cases ha with
  | nil => exact .ok trivial (List.suffix_refl _) .nil
  | @cons t u ts us ht ha =>
    show Agrees _ _ (if t.kind = k then _ else _) (if u.kind = k then _ else _)
    by_cases h : t.kind = k
    · rw [if_pos h, if_pos ((ht.kind_iff hk).1 h)]
      exact .ok trivial (List.suffix_cons t ts) ha
    · rw [if_neg h, if_neg fun hu => h ((ht.kind_iff hk).2 hu)]
      exact .ok trivial (List.suffix_refl _) (.cons ht ha)

theorem sees_reads {k : TokenKind} (hk : k.endsLine = false) : Reads (fun _ => True) (sees k) := by
  intro ts us _ ha
  have hne : TokenKind.newline ≠ k ∧ TokenKind.finish ≠ k := by
    constructor <;> (rintro rfl; simp [TokenKind.endsLine] at hk)
  have heq := ha.peekKind_congr (fun l => decide (l = k)) (by simp [hne.1, hne.2])
  show Agrees _ _ (.ok (decide (peekKind ts = k), ts)) (.ok (decide (peekKind us = k), us))
  rw [← heq]
  exact .ok trivial (List.suffix_refl ts) ha

/-- A token is demanded, and a rule goes on after it. -/
theorem Reads.afterToken {k : TokenKind} {what : Expectation} {r : Rule α}
    (hk : k.endsLine = false) (hr : Reads P r) : Reads P (expect k what >>= fun _ => r) := by
  intro ts us hw ha
  rw [bind_apply, bind_apply]
  cases ha with
  | nil => exact .error _ _
  | @cons t u ts us ht ha =>
    by_cases h : t.kind = k
    · rw [expect, expect, if_pos h, if_pos ((ht.kind_iff hk).1 h)]
      exact (hr hw.tail ha).cons t
    · rw [expect, expect, if_neg h, if_neg fun hu => h ((ht.kind_iff hk).2 hu)]
      exact .error _ _

theorem expectName_reads (what : Expectation) :
    Reads (fun s => Text.isWord s = true) (expectName what) := by
  intro ts us hw ha
  rw [expectName, bind_apply, bind_apply]
  cases ha with
  | nil => exact .error _ _
  | @cons t u ts us ht ha =>
    by_cases h : t.kind = .name
    · have hsame := ht.same (by rw [h]; rfl)
      rw [expect, expect, if_pos h, if_pos (hsame.1 ▸ h)]
      simp only [pure_apply, ← hsame.2.1]
      exact .ok (hw t List.mem_cons_self h) (List.suffix_cons t ts) ha
    · rw [expect, expect, if_neg h, if_neg fun hu => h ((ht.kind_iff rfl).2 hu)]
      exact .error _ _

theorem lineEnd_reads : Reads (fun _ => True) lineEnd := by
  intro ts us _ ha
  have heq := ha.peekKind_congr TokenKind.endsLine rfl
  show Agrees _ _ (if (peekKind ts).endsLine then _ else _)
      (if (peekKind us).endsLine then _ else _)
  rw [← heq]
  split
  · exact .ok trivial (List.suffix_refl ts) ha
  · exact .error _ _

/-- Nothing may follow any more. -/
theorem Reads.atLineEnd {a : α} (h : P a) : Reads P (do lineEnd; return a) :=
  .bind lineEnd_reads fun _ _ => .pure h

/-! ### Lists and chains -/

theorem commaItems_reads {item : Rule α} (tooMany : SyntaxFault) (h : Reads P item) (limit : Nat) :
    Reads (fun as => ∀ a ∈ as, P a) (commaItems item tooMany limit) := by
  induction limit with
  | zero => exact .fail tooMany
  | succ limit ih =>
    refine .bind h fun a ha => .bind (accept_reads rfl) fun b _ => .branch ?_ ?_
    · refine .bind ih fun as has => .pure ?_
      simpa [ha] using has
    · exact .pure (by simpa using ha)

theorem arguments_reads {expression : Rule Node} {P : Node → Prop} (h : Reads P expression) :
    Reads (fun as => ∀ a ∈ as, P a) (arguments expression) :=
  commaItems_reads _ h _

theorem enclosed_reads {expression : Rule Node} {P : Node → Prop} {closing : TokenKind}
    (what : Expectation) (hc : closing.endsLine = false) (h : Reads P expression) :
    Reads (fun as => ∀ a ∈ as, P a) (enclosed expression closing what) := by
  have hnil : ∀ a ∈ ([] : List Node), P a := by simp
  have hend (as : List Node) (has : ∀ a ∈ as, P a) :
      Reads (fun as => ∀ a ∈ as, P a) (do let _ ← expect closing what; return as) :=
    .afterToken hc (.pure has)
  exact .bind (sees_reads hc) fun b _ =>
    .branch (.bind (.pure hnil) hend) (.bind (arguments_reads h) hend)

/-- The operators of one level, as a look-up by kind. -/
structure Signs (operator? : TokenKind → Option Operator) : Prop where
  lineEnd : operator? .newline = operator? .finish
  binary : ∀ {k op}, operator? k = some op → op.accepts 2 = true ∧ op.nameCount = 0

theorem leftChainFrom_reads {operand : Rule Node} {operator? : TokenKind → Option Operator}
    (h : Reads Node.Expression operand) (hs : Signs operator?) (fuel : Nat) {left : Node}
    (hl : left.Expression) : Reads Node.Expression (leftChainFrom operand operator? fuel left) := by
  induction fuel generalizing left with
  | zero => exact .pure hl
  | succ fuel ih =>
    intro ts us hw ha
    cases ha with
    | nil => exact .ok hl (List.suffix_refl _) .nil
    | @cons t u ts us ht ha =>
      have hop := ht.kind_congr operator? hs.lineEnd
      simp only [leftChainFrom, ← hop]
      cases hk : operator? t.kind with
      | none => exact .ok hl (List.suffix_refl _) (.cons ht ha)
      | some op =>
        obtain ⟨right, rest, rest', hts, hus, hr, hsuf, hrest⟩ | ⟨e, e', hts, hus⟩ :=
          h.ends hw.tail ha
        · simp only [hts, hus]
          have hnode := Node.Expression.binary (hs.binary hk).1 (hs.binary hk).2 hl hr
          exact ((ih hnode (hw.tail.suffix hsuf) hrest).suffix hsuf).cons t
        · simp only [hts, hus]
          exact .error e e'

theorem leftChain_reads {operand : Rule Node} {operator? : TokenKind → Option Operator}
    (h : Reads Node.Expression operand) (hs : Signs operator?) :
    Reads Node.Expression (leftChain operand operator?) := by
  refine .bind h fun left hl ts us hw ha => ?_
  -- alike tokens are equally many, so both sides get the same fuel
  show Agrees _ ts (leftChainFrom operand operator? ts.length left ts)
    (leftChainFrom operand operator? us.length left us)
  rw [← ha.length_eq]
  exact leftChainFrom_reads h hs _ hl hw ha

end Rule

/-! ### Expressions -/

namespace Level

open Rule Tokens

/-- All rules of the level read expressions. -/
structure Reads (l : Level) : Prop where
  expression : Rule.Reads Node.Expression l.expression
  negation : Rule.Reads Node.Expression l.negation
  unary : Rule.Reads Node.Expression l.unary

theorem floor_reads : floor.Reads := ⟨.fail _, .fail _, .fail _⟩

variable {inner : Level}

theorem conditional_reads (h : inner.Reads) : Rule.Reads Node.Expression inner.conditional := by
  refine .bind h.expression fun guard hg => .afterToken rfl ?_
  refine .bind h.expression fun taken ht => .afterToken rfl ?_
  refine .bind h.expression fun other ho => .pure (.operation rfl ?_)
  simp [hg, ht, ho]

theorem named_reads (h : inner.Reads) {name : String} (hn : Text.isWord name = true) :
    Rule.Reads Node.Expression (inner.named name) := by
  refine .bind (accept_reads rfl) fun b _ => .branch ?_ (.pure (.name hn))
  exact .bind (enclosed_reads _ rfl h.expression) fun args ha => .pure (.call hn ha)

theorem group_reads (h : inner.Reads) : Rule.Reads Node.Expression inner.group :=
  .bind h.expression fun _ he => .afterToken rfl (.pure he)

theorem elements_reads (h : inner.Reads) : Rule.Reads Node.Expression inner.elements :=
  .bind (enclosed_reads _ rfl h.expression) fun _ hes => .pure (.array hes)

theorem primary_reads (h : inner.Reads) : Rule.Reads Node.Expression inner.primary := by
  intro ts us hw ha
  cases ha with
  | nil => exact .error _ _
  | @cons t u ts us ht ha =>
    cases he : t.kind.endsLine with
    | true =>
      rcases TokenKind.endsLine_iff.1 he with hk | hk <;>
        rcases TokenKind.endsLine_iff.1 (ht.endsLine_eq ▸ he) with hk' | hk' <;>
        simp only [primary, hk, hk'] <;> exact .error _ _
    | false =>
      obtain ⟨hk, hl, hv⟩ := ht.same he
      simp only [primary, ← hk, ← hl, ← hv]
      split
      · exact .ok (.literal _) (List.suffix_cons t ts) ha
      · exact .ok (.literal _) (List.suffix_cons t ts) ha
      · exact .ok (.literal _) (List.suffix_cons t ts) ha
      · next hname => exact (named_reads h (hw t List.mem_cons_self hname) hw.tail ha).cons t
      · exact (group_reads h hw.tail ha).cons t
      · exact (elements_reads h hw.tail ha).cons t
      · exact (conditional_reads h hw.tail ha).cons t
      · exact .error _ _

theorem unaryRule_reads (h : inner.Reads) : Rule.Reads Node.Expression inner.unaryRule := by
  refine .bind (accept_reads rfl) fun b _ => .branch ?_ (primary_reads h)
  refine .bind h.unary fun e he => .pure (.operation rfl ?_)
  simp [he]

/-- The signs of each level of operators. -/
theorem signs_of_level (operator? : TokenKind → Option Operator)
    (h : operator? ∈ [powerSign?, factorSign?, termSign?, conversionSign?, comparisonSign?,
      logicSign?]) : Signs operator? := by
  simp only [List.mem_cons, List.not_mem_nil, or_false] at h
  constructor
  · rcases h with rfl | rfl | rfl | rfl | rfl | rfl <;> rfl
  · intro k op hop
    rcases h with rfl | rfl | rfl | rfl | rfl | rfl
    all_goals
      simp only [powerSign?, factorSign?, termSign?, conversionSign?, comparisonSign?, logicSign?]
        at hop
      split at hop <;> cases hop <;> exact ⟨rfl, rfl⟩

theorem comparisonRule_reads (h : inner.Reads) :
    Rule.Reads Node.Expression inner.comparisonRule := by
  have hpower := leftChain_reads (unaryRule_reads h) (signs_of_level powerSign? (by simp))
  have hfactor := leftChain_reads hpower (signs_of_level factorSign? (by simp))
  have hterm := leftChain_reads hfactor (signs_of_level termSign? (by simp))
  have hconversion := leftChain_reads hterm (signs_of_level conversionSign? (by simp))
  exact leftChain_reads hconversion (signs_of_level comparisonSign? (by simp))

theorem negationRule_reads (h : inner.Reads) : Rule.Reads Node.Expression inner.negationRule := by
  refine .bind (accept_reads rfl) fun b _ => .branch ?_ (comparisonRule_reads h)
  refine .bind h.negation fun e he => .pure (.operation rfl ?_)
  simp [he]

theorem above_reads (h : inner.Reads) : inner.above.Reads where
  expression := leftChain_reads (negationRule_reads h) (signs_of_level logicSign? (by simp))
  negation := negationRule_reads h
  unary := unaryRule_reads h

theorem withRoom_reads (room : Nat) : (withRoom room).Reads := by
  induction room with
  | zero => exact floor_reads
  | succ room ih => exact above_reads ih

end Level

theorem Rule.expression_reads : Rule.Reads Node.Expression Rule.expression :=
  (Level.withRoom_reads _).expression

/-! ### Statements -/

/-- Parameters are words, and no two of them are the same. -/
def IsParameters (names : List String) : Prop := names.Nodup ∧ ∀ x ∈ names, Text.isWord x = true

theorem IsParameters.nil : IsParameters [] := by simp [IsParameters]

/-- What every line of source says: its expressions are expressions, its names are words. -/
def Statement.Proper : Statement → Prop
  | simple n => ∀ p, n.Placed p
  | openIf guard => guard.Expression
  | elseIf guard => guard.Expression
  | openWhile guard => guard.Expression
  | openFor counter start limit step => Text.isWord counter = true ∧ start.Expression ∧
      limit.Expression ∧ step.Expression
  | openClosure _ name params => Text.isWord name = true ∧ IsParameters params
  | loop guard => guard.Expression
  | giveBack value => ∀ e ∈ value, e.Expression
  | _ => True

namespace Rule

open Tokens

theorem assignment_reads {name : String} (hn : Text.isWord name = true) :
    Reads Statement.Proper (assignment name) := by
  refine .bind expression_reads fun value hv => .atLineEnd fun p => .expression (.operation rfl ?_)
  simp [hv, Node.Expression.name hn]

theorem letStatement_reads : Reads Statement.Proper letStatement :=
  .bind (expectName_reads _) fun _ hn => .afterToken rfl (assignment_reads hn)

/-- A declared array has one size at most. -/
theorem declaredSize_reads :
    Reads (fun size => (∀ e ∈ size, e.Expression) ∧ size.length ≤ 1) declaredSize := by
  refine .bind (accept_reads rfl) fun b _ => .branch ?_ (.pure (by simp))
  exact .bind expression_reads fun e he => .afterToken rfl (.pure (by simp [he]))

theorem dimStatement_reads : Reads Statement.Proper dimStatement := by
  refine .bind (expectName_reads _) fun name hn => .bind declaredSize_reads fun size hs => ?_
  refine .afterToken rfl (.bind (expectName_reads _) fun type ht => .atLineEnd fun p => ?_)
  refine .expression (.operation ?_ ?_)
  · match size, hs.2 with
    | [], _ => rfl
    | [_], _ => rfl
  · intro e he
    rcases List.mem_append.1 he with he | he
    · rcases List.mem_pair.1 he with rfl | rfl
      · exact .name hn
      · exact .name ht
    · exact hs.1 e he

theorem condition_reads (what : Expectation) : Reads Node.Expression (condition what) :=
  .bind expression_reads fun _ hg => .afterToken rfl (.atLineEnd hg)

/-- A statement with nothing after it. -/
theorem Reads.lineEndMap {s : Statement} (h : s.Proper) :
    Reads Statement.Proper fun ts => (lineEnd ts).map fun r => (s, r.2) :=
  .map (fun _ => s) lineEnd_reads fun _ _ => h

theorem endStatement_reads : Reads Statement.Proper endStatement := by
  intro ts us hw ha
  cases ha with
  | nil => exact .error _ _
  | @cons t u ts us ht ha =>
    simp only [endStatement, ← ht.kind_congr closerOf rfl]
    split
    · exact .error _ _
    · exact (Reads.lineEndMap (s := .close _) trivial hw.tail ha).cons t

theorem untilGuard_reads : Reads Node.Expression untilGuard := by
  refine .bind (accept_reads rfl) fun b _ => .branch ?_ (.pure (.literal _))
  exact .bind expression_reads fun e he => .pure (.operation rfl (by simp [he]))

theorem loopStatement_reads : Reads Statement.Proper loopStatement := by
  have hguard : Reads Node.Expression loopGuard :=
    .bind (accept_reads rfl) fun _ _ => .branch expression_reads untilGuard_reads
  exact .bind hguard fun guard hg => .atLineEnd hg

theorem stepOf_reads : Reads Node.Expression stepOf :=
  .bind (accept_reads rfl) fun _ _ => .branch expression_reads (.pure (.literal _))

theorem forStatement_reads : Reads Statement.Proper forStatement := by
  refine .bind (expectName_reads _) fun counter hc => .afterToken rfl ?_
  refine .bind expression_reads fun start hs => .afterToken rfl ?_
  refine .bind expression_reads fun limit hl => .bind stepOf_reads fun step hst => ?_
  exact .atLineEnd ⟨hc, hs, hl, hst⟩

theorem nextStatement_reads : Reads Statement.Proper nextStatement := by
  intro ts us hw ha
  cases ha with
  | nil => exact .ok trivial (List.suffix_refl _) .nil
  | @cons t u ts us ht ha =>
    by_cases h : t.kind = .name
    · have hsame := ht.same (by rw [h]; rfl)
      simp only [nextStatement, h, ← hsame.1, ← hsame.2.1, if_true]
      exact (Reads.lineEndMap (s := .next _) trivial hw.tail ha).cons t
    · have hu : u.kind ≠ .name := fun hu => h ((ht.kind_iff rfl).2 hu)
      simp only [nextStatement, h, hu, if_false]
      exact Reads.lineEndMap (s := .next _) trivial hw (.cons ht ha)

/-- The names are words, new ones and different from each other. -/
theorem parameterNames_reads (limit : Nat) (seen : List String) :
    Reads (fun names => IsParameters names ∧ ∀ name ∈ names, name ∉ seen)
      (parameterNames limit seen) := by
  induction limit generalizing seen with
  | zero => exact .fail _
  | succ limit ih =>
    refine .bind (expectName_reads _) fun name hword => ?_
    split
    · exact .fail _
    · next hnew =>
      have hname : name ∉ seen := by simpa using hnew
      refine .bind (accept_reads rfl) fun b _ =>
        .branch ?_ (.pure (by simp [IsParameters, hname, hword]))
      refine .bind (ih (name :: seen)) fun names hnames => .pure ⟨⟨?_, ?_⟩, ?_⟩
      · exact List.nodup_cons.2 ⟨fun h => hnames.2 name h List.mem_cons_self, hnames.1.1⟩
      · exact List.forall_mem_cons.2 ⟨hword, hnames.1.2⟩
      · intro other hother
        rcases List.mem_cons.1 hother with rfl | hother
        · exact hname
        · exact fun h => hnames.2 other hother (List.mem_cons_of_mem _ h)

theorem parameters_reads : Reads IsParameters parameters := by
  have hend (names : List String) (h : IsParameters names) :
      Reads IsParameters (do let _ ← expect .rightParen .parametersClose; return names) :=
    .afterToken rfl (.pure h)
  refine .bind (sees_reads rfl) fun b _ => .branch (.bind (.pure .nil) hend) ?_
  exact .bind (parameterNames_reads _ _) fun names h => hend names h.1

theorem closureStatement_reads (kind : ClosureKind) :
    Reads Statement.Proper (closureStatement kind) := by
  refine .bind (expectName_reads _) fun name hn => .bind (accept_reads rfl) fun b _ => ?_
  have hend (params : List String) (h : IsParameters params) :
      Reads Statement.Proper (do lineEnd; return .openClosure kind name params) :=
    .atLineEnd ⟨hn, h⟩
  exact .branch (.bind parameters_reads hend) (.bind (.pure .nil) hend)

theorem defunStatement_reads : Reads Statement.Proper defunStatement := by
  refine .bind (expectName_reads _) fun name hn => .afterToken rfl ?_
  refine .bind parameters_reads fun params hp => .afterToken rfl ?_
  refine .bind expression_reads fun value hv => .atLineEnd fun p => ?_
  have hreturn : (Node.plain .returned [value]).Placed .call :=
    @Node.Placed.returned .call (some value) rfl (by simpa using hv)
  exact @Node.Placed.closure p .function name params _ hn hp.1 hp.2
    (.block (by simpa using hreturn))

theorem returnStatement_reads : Reads Statement.Proper returnStatement := by
  have hvalue : Reads Statement.Proper
      (do let value ← expression; lineEnd; return Statement.giveBack (some value)) :=
    .bind expression_reads fun value hv => .atLineEnd (by simpa [Statement.Proper] using hv)
  intro ts us hw ha
  simp only [returnStatement, ← ha.peekKind_congr TokenKind.endsLine rfl]
  split
  · exact .ok (by simp [Statement.Proper]) (List.suffix_refl ts) ha
  · exact hvalue hw ha

theorem jumpStatement_reads (j : Jump) : Reads Statement.Proper (jumpStatement j) := by
  intro ts us hw ha
  cases ha with
  | nil => exact .error _ _
  | @cons t u ts us ht ha =>
    simp only [jumpStatement, ← ht.kind_congr loopKindOf rfl]
    split
    · exact .error _ _
    · exact (Reads.lineEndMap (s := .jump j _) trivial hw.tail ha).cons t

theorem useStatement_reads : Reads Statement.Proper useStatement :=
  .bind (expectName_reads _) fun _ _ => .atLineEnd trivial

theorem expressionStatement_reads : Reads Statement.Proper expressionStatement :=
  .bind expression_reads fun _ he => .atLineEnd fun _ => .expression he

/-! ### Lines that start with a name -/

/-- Alike tokens have their closing parenthesis in the same place. -/
theorem afterClosing_alike {ts us : List Token} (ha : Alike ts us) (depth : Nat) :
    (afterClosing depth ts = none ∧ afterClosing depth us = none) ∨
      ∃ rest rest', afterClosing depth ts = some rest ∧ afterClosing depth us = some rest' ∧
        Alike rest rest' := by
  induction ha generalizing depth with
  | nil => exact .inl ⟨rfl, rfl⟩
  | @cons t u ts us ht ha ih =>
    unfold afterClosing
    rw [← ht.endsLine_eq]
    split
    · exact .inl ⟨rfl, rfl⟩
    · next he =>
      rw [← (ht.same (by simpa using he)).1]
      split
      · exact ih _
      · split
        · match depth with
          | 0 => exact .inl ⟨rfl, rfl⟩
          | 1 => exact .inr ⟨ts, us, rfl, rfl, ha⟩
          | d + 2 => exact ih _
        · exact ih _

theorem elementAssignment_reads {name : String} (hn : Text.isWord name = true) :
    Reads Statement.Proper (elementAssignment name) := by
  refine .bind expression_reads fun index hi => .afterToken rfl (.afterToken rfl ?_)
  refine .bind expression_reads fun value hv => .atLineEnd fun p => .expression (.operation rfl ?_)
  simp [hi, hv, Node.Expression.name hn]

theorem callStatement_reads {name : String} (hn : Text.isWord name = true) :
    Reads Statement.Proper (callStatement name) :=
  .bind (enclosed_reads _ rfl expression_reads) fun _ ha =>
    .atLineEnd fun _ => .expression (.call hn ha)

theorem bareCall_reads {name : String} (hn : Text.isWord name = true) :
    Reads Statement.Proper (bareCall name) :=
  .bind (arguments_reads expression_reads) fun _ ha =>
    .atLineEnd fun _ => .expression (.call hn ha)

section Named

variable {t u : Token} {ts us : List Token}

theorem nameStatement_agrees (hk : t.kind = .name) (ht : t.Alike u) (hw : Worded (t :: ts))
    (ha : Alike ts us) :
    Agrees Statement.Proper (t :: ts) (nameStatement t ts) (nameStatement u us) := by
  have hsame := ht.same (by rw [hk]; rfl)
  have hn := hw t List.mem_cons_self hk
  simp only [nameStatement, ← ha.peekKind_congr TokenKind.endsLine rfl,
    ← ha.peekKind_congr startsExpression rfl, ← hsame.2.1]
  split
  · exact .ok (fun p => .expression (.call hn (by simp))) (List.suffix_cons t ts) ha
  · split
    · exact (bareCall_reads hn hw.tail ha).cons t
    · exact expressionStatement_reads hw (.cons ht ha)

/-- A call or an assignment to an element, after the name and the opening parenthesis. -/
theorem parenStatement_agrees {open₁ open₂ : Token} (hk : t.kind = .name) (ht : t.Alike u)
    (ho : open₁.Alike open₂) (ho₁ : open₁.kind = .leftParen) (hw : Worded (t :: open₁ :: ts))
    (ha : Alike ts us) :
    Agrees Statement.Proper (t :: open₁ :: ts) (namedStatement t (open₁ :: ts))
      (namedStatement u (open₂ :: us)) := by
  have hlex := (ht.same (by rw [hk]; rfl)).2.1
  have hn := hw t List.mem_cons_self hk
  have hname := nameStatement_agrees hk ht hw (.cons ho ha)
  have hts : ts <:+ t :: open₁ :: ts := (List.suffix_cons open₁ ts).trans (List.suffix_cons t _)
  simp only [namedStatement, ho₁, (ho.kind_iff rfl).1 ho₁, ← hlex]
  obtain ⟨hnone, hnone'⟩ | ⟨rest, rest', hsome, hsome', hrest⟩ := afterClosing_alike ha 1
  · simp only [hnone, hnone']
    exact hname
  · have hequal := hrest.peekKind_congr (fun k => decide (k = .equal)) rfl
    simp only [decide_eq_decide] at hequal
    simp only [hsome, hsome', ← hequal, ← hrest.peekKind_congr TokenKind.endsLine rfl]
    split
    · exact (elementAssignment_reads hn (hw.suffix hts) ha).suffix hts
    · split
      · exact (callStatement_reads hn (hw.suffix hts) ha).suffix hts
      · exact hname

theorem namedStatement_agrees (hk : t.kind = .name) (ht : t.Alike u) (hw : Worded (t :: ts))
    (ha : Alike ts us) :
    Agrees Statement.Proper (t :: ts) (namedStatement t ts) (namedStatement u us) := by
  have hname := nameStatement_agrees hk ht hw ha
  cases ha with
  | nil => exact hname
  | @cons t' u' ts us ht' ha =>
    by_cases hparen : t'.kind = .leftParen
    · exact parenStatement_agrees hk ht ht' hparen hw ha
    · by_cases hequal : t'.kind = .equal
      · have hlex := (ht.same (by rw [hk]; rfl)).2.1
        simp only [namedStatement, hequal, (ht'.kind_iff rfl).1 hequal, ← hlex]
        exact ((assignment_reads (hw t List.mem_cons_self hk) hw.tail.tail ha).cons t').cons t
      · have hparen' : u'.kind ≠ .leftParen := fun h => hparen ((ht'.kind_iff rfl).2 h)
        have hequal' : u'.kind ≠ .equal := fun h => hequal ((ht'.kind_iff rfl).2 h)
        simpa only [namedStatement, hparen, hequal, hparen', hequal'] using hname

end Named

/-- The statement of a line. -/
theorem statement_reads : Reads Statement.Proper statement := by
  have hwhile : Reads Statement.Proper
      (do let guard ← expression; lineEnd; return Statement.openWhile guard) :=
    .bind expression_reads fun _ hg => .atLineEnd hg
  intro ts us hw ha
  cases ha with
  | nil => exact .error _ _
  | @cons t u ts us ht ha =>
    have hexpr := expressionStatement_reads hw (.cons ht ha)
    -- the ends of a line are two kinds of tokens, and all other kinds are equal if alike
    cases he : t.kind.endsLine with
    | true =>
      rcases TokenKind.endsLine_iff.1 he with hk | hk <;>
        rcases TokenKind.endsLine_iff.1 (ht.endsLine_eq ▸ he) with hk' | hk' <;>
        simp only [statement, hk, hk'] <;> exact hexpr
    | false =>
      have hk := (ht.same he).1
      simp only [statement, ← hk]
      split
      · next hname => exact namedStatement_agrees hname ht hw ha
      · exact (letStatement_reads hw.tail ha).cons t
      · exact (dimStatement_reads hw.tail ha).cons t
      · exact (Reads.map Statement.openIf (condition_reads _) (fun _ h => h) hw.tail ha).cons t
      · exact (Reads.map Statement.elseIf (condition_reads _) (fun _ h => h) hw.tail ha).cons t
      · exact (Reads.lineEndMap (s := .otherwise) trivial hw.tail ha).cons t
      · exact (endStatement_reads hw.tail ha).cons t
      · exact (hwhile hw.tail ha).cons t
      · exact (Reads.lineEndMap (s := .close .wend) trivial hw.tail ha).cons t
      · exact (Reads.lineEndMap (s := .openDo) trivial hw.tail ha).cons t
      · exact (loopStatement_reads hw.tail ha).cons t
      · exact (forStatement_reads hw.tail ha).cons t
      · exact (nextStatement_reads hw.tail ha).cons t
      · exact (closureStatement_reads _ hw.tail ha).cons t
      · exact (closureStatement_reads _ hw.tail ha).cons t
      · exact (defunStatement_reads hw.tail ha).cons t
      · exact (returnStatement_reads hw.tail ha).cons t
      · exact (jumpStatement_reads _ hw.tail ha).cons t
      · exact (jumpStatement_reads _ hw.tail ha).cons t
      · exact (useStatement_reads hw.tail ha).cons t
      · exact hexpr

end Rule
end LineBasic
