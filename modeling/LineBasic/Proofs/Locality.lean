import LineBasic.Proofs.Precedence

/-!
# What rules look at

A rule for expressions takes some tokens from the front and looks at one more. If that one is
replaced by a token that goes on in the same way, by the end of the line or by a closing
parenthesis, the rule takes the same tokens and gives the same. With more room it gives the same,
too. What it takes has its parentheses in pairs and all on one line.

* `Rule.Continues` : tokens that can come after an expression in the place of others.
* `Rule.Balanced`, `Rule.Phrase` : tokens with parentheses in pairs; such tokens that
  can start an expression.
* `Rule.Carries` : what a rule takes and gives, another rule takes and gives as
  well, whatever continues.
* `Level.withRoom_carries` : it is so for the rules for expressions with some
  room and with more room.
* `Level.ruleAt_group`, `Level.exists_group` : an expression in parentheses is read wherever a level
  is demanded, and whatever is read after an opening parenthesis starts with one.
-/

namespace LineBasic

namespace Rule

variable {α β : Type}

theorem bind_eq_ok {r : Rule α} {f : α → Rule β} {ts rest : List Token} {b : β}
    (h : (r >>= f) ts = .ok (b, rest)) :
    ∃ a mid, r ts = .ok (a, mid) ∧ f a mid = .ok (b, rest) := by
  rw [bind_apply] at h
  cases hfirst : r ts with
  | error fault => simp [hfirst] at h
  | ok p => exact ⟨p.1, p.2, rfl, by simpa [hfirst] using h⟩

theorem expect_eq_ok {kind : TokenKind} {what : Expectation} {ts rest : List Token} {t : Token}
    (h : expect kind what ts = .ok (t, rest)) : ts = t :: rest ∧ t.kind = kind := by
  cases ts with
  | nil => cases h
  | cons u ts =>
    by_cases hu : u.kind = kind
    · rw [expect_of_eq hu] at h
      cases h
      exact ⟨rfl, hu⟩
    · rw [expect, if_neg hu] at h
      cases h

/-! ### Balanced tokens -/

/-- The search for the parenthesis that closes the innermost open one passes over the tokens. -/
def Balanced (ts : List Token) : Prop :=
  ∀ (depth : Nat) (rest : List Token),
    afterClosing (depth + 1) (ts ++ rest) = afterClosing (depth + 1) rest

/-- Balanced tokens with which an expression can start. -/
structure Phrase (ts : List Token) : Prop where
  balanced : Balanced ts
  starts : startsExpression (peekKind ts) = true

/-- Balanced tokens and a closing token. -/
def ClosedBy (closing : TokenKind) (ts : List Token) : Prop :=
  ∃ inside t, ts = inside ++ [t] ∧ Balanced inside ∧ t.kind = closing

variable {ts us : List Token} {t : Token}

theorem Balanced.nil : Balanced [] := fun _ _ => rfl

theorem Balanced.append (hts : Balanced ts) (hus : Balanced us) : Balanced (ts ++ us) := by
  intro depth rest
  rw [List.append_assoc, hts, hus]

/-- A token that is neither a parenthesis nor the end of a line. -/
theorem Balanced.token (hline : t.kind.endsLine = false) (hopen : t.kind ≠ .leftParen)
    (hclose : t.kind ≠ .rightParen) :
    Balanced [t] := by
  intro depth rest
  simp [afterClosing, hline, hopen, hclose]

theorem afterClosing_open (ht : t.kind = .leftParen) (depth : Nat) (rest : List Token) :
    afterClosing depth (t :: rest) = afterClosing (depth + 1) rest := by
  cases depth <;> simp [afterClosing, ht, TokenKind.endsLine]

theorem afterClosing_close (ht : t.kind = .rightParen) (depth : Nat) (rest : List Token) :
    afterClosing (depth + 2) (t :: rest) = afterClosing (depth + 1) rest := by
  simp [afterClosing, ht, TokenKind.endsLine]

/-- The parenthesis that closes the last open one. -/
theorem afterClosing_last (ht : t.kind = .rightParen) (rest : List Token) :
    afterClosing 1 (t :: rest) = some rest := by
  simp [afterClosing, ht, TokenKind.endsLine]

theorem ClosedBy.parenthesized (h : ClosedBy .rightParen ts) (ht : t.kind = .leftParen) :
    Balanced (t :: ts) := by
  obtain ⟨inside, u, rfl, hinside, hu⟩ := h
  intro depth rest
  rw [List.cons_append, List.append_assoc, afterClosing_open ht, hinside, List.singleton_append,
    afterClosing_close hu]

theorem ClosedBy.braced (h : ClosedBy .rightBrace ts) : Balanced ts := by
  obtain ⟨inside, u, rfl, hinside, hu⟩ := h
  refine hinside.append (.token ?_ ?_ ?_) <;> rw [hu] <;> decide

theorem Phrase.append (hts : Phrase ts) (hus : Balanced us) : Phrase (ts ++ us) := by
  refine ⟨hts.balanced.append hus, ?_⟩
  cases ts with
  | nil => cases hts.starts
  | cons t ts => exact hts.starts

/-- No closing token can start an expression. -/
theorem Phrase.peekKind_ne (h : Phrase ts) (kind : TokenKind)
    (hkind : startsExpression kind = false) (rest : List Token) : peekKind (ts ++ rest) ≠ kind := by
  rintro rfl
  cases ts with
  | nil => cases h.starts
  | cons t ts => cases hkind.symm.trans h.starts

/-! ### Rules that carry over -/

/-- The tokens with which the expressions end that can be continued by nothing. -/
def stops (kind : TokenKind) : Bool := kind.endsLine || kind = .rightParen

/-- What comes next is of the same kind, or it ends any expression. -/
def Continues (rest rest' : List Token) : Prop :=
  peekKind rest' = peekKind rest ∨ stops (peekKind rest') = true

theorem Continues.append {rest rest' : List Token} (h : Continues rest rest') (used : List Token) :
    Continues (used ++ rest) (used ++ rest') := by
  cases used with
  | nil => exact h
  | cons t used => exact .inl rfl

/-- A kind that does not come next does not come next in other tokens either, unless
it ends an expression. -/
theorem Continues.peekKind_ne {rest rest' : List Token} (h : Continues rest rest')
    {kind : TokenKind} (hkind : stops kind = false) (hne : peekKind rest ≠ kind) :
    peekKind rest' ≠ kind := by
  rintro rfl
  rcases h with heq | hstop
  · exact hne heq.symm
  · rw [hkind] at hstop
    cases hstop

/-- What the first rule takes has the property, and the second rule takes and gives the
same, whatever continues. -/
def Carries (P : List Token → Prop) (r r' : Rule α) : Prop :=
  ∀ ⦃ts : List Token⦄ ⦃a : α⦄ ⦃rest : List Token⦄, r ts = .ok (a, rest) →
    ∃ used, ts = used ++ rest ∧ P used ∧ ∀ rest', Continues rest rest' →
      r' (used ++ rest') = .ok (a, rest')

/-- Tokens in two parts. -/
def Both (P Q : List Token → Prop) (ts : List Token) : Prop := ∃ us vs, ts = us ++ vs ∧ P us ∧ Q vs

namespace Carries

variable {P Q : List Token → Prop} {r r' : Rule α} {f f' : α → Rule β}

theorem mono (h : Carries P r r') (himp : ∀ ts, P ts → Q ts) : Carries Q r r' := by
  intro ts a rest hr
  obtain ⟨used, hts, hP, hcarry⟩ := h hr
  exact ⟨used, hts, himp used hP, hcarry⟩

theorem pure (a : α) : Carries (· = []) (Pure.pure a : Rule α) (Pure.pure a) := by
  rintro ts b rest hr
  cases hr
  exact ⟨[], rfl, rfl, fun _ _ => rfl⟩

theorem fail (fault : SyntaxFault) (r' : Rule α) : Carries P (Rule.fail fault) r' :=
  fun _ _ _ hr => nomatch hr

theorem bind (h : Carries P r r') (hf : ∀ a, Carries Q (f a) (f' a)) :
    Carries (Both P Q) (r >>= f) (r' >>= f') := by
  intro ts b rest hr
  obtain ⟨a, mid, hfirst, hmore⟩ := bind_eq_ok hr
  obtain ⟨us, rfl, hP, hus⟩ := h hfirst
  obtain ⟨vs, rfl, hQ, hvs⟩ := hf a hmore
  refine ⟨us ++ vs, by rw [List.append_assoc], ⟨us, vs, rfl, hP, hQ⟩, fun rest' hrest => ?_⟩
  rw [List.append_assoc, bind_ok (hus _ (hrest.append vs))]
  exact hvs rest' hrest

/-- A rule after a token that has to be there. -/
theorem afterToken {kind : TokenKind} {what : Expectation} (h : Carries P r r') :
    Carries (Both (fun ts => ∃ t, ts = [t] ∧ t.kind = kind) P) (do let _ ← expect kind what; r)
      (do let _ ← expect kind what; r') := by
  refine bind (fun ts t rest hr => ?_) fun _ => h
  obtain ⟨rfl, ht⟩ := expect_eq_ok hr
  exact ⟨[t], rfl, ⟨t, rfl, ht⟩, fun rest' _ => expect_of_eq ht what rest'⟩

/-- A rule that depends on whether a token of a kind comes next, which is taken then. -/
theorem accepting {kind : TokenKind} {yes yes' no no' : Rule α} (hkind : stops kind = false)
    (hyes : ∀ t : Token, t.kind = kind → Carries (fun ts => P (t :: ts)) yes yes')
    (hno : Carries P no no') :
    Carries P (do if ← accept kind then yes else no) (do if ← accept kind then yes' else no') := by
  intro ts a rest hr
  by_cases hpeek : peekKind ts = kind
  · cases ts with
    | nil => subst hpeek; cases hkind
    | cons t ts =>
      have ht : t.kind = kind := hpeek
      rw [branch_of_eq ht] at hr
      obtain ⟨used, rfl, hP, hcarry⟩ := hyes t ht hr
      exact ⟨t :: used, rfl, hP, fun rest' hrest => (branch_of_eq ht ..).trans (hcarry rest' hrest)⟩
  · rw [branch_of_ne hpeek] at hr
    obtain ⟨used, rfl, hP, hcarry⟩ := hno hr
    refine ⟨used, rfl, hP, fun rest' hrest => ?_⟩
    rw [branch_of_ne ((hrest.append used).peekKind_ne hkind hpeek)]
    exact hcarry rest' hrest

end Carries

/-! ### Lists and operators -/

theorem balanced_comma (h : ∃ t, ts = [t] ∧ t.kind = .comma) : Balanced ts := by
  obtain ⟨t, rfl, ht⟩ := h
  exact .token (by rw [ht]; rfl) (by rw [ht]; decide) (by rw [ht]; decide)

theorem commaItems_carries {item item' : Rule α} (h : Carries Phrase item item')
    (tooMany : SyntaxFault) (limit : Nat) :
    Carries Phrase (commaItems item tooMany limit) (commaItems item' tooMany limit) := by
  induction limit with
  | zero => exact .fail _ _
  | succ limit ih =>
    refine (h.bind (Q := Balanced) fun a => .accepting rfl (fun t ht => ?_) ?_).mono ?_
    · refine (ih.bind (Q := (· = [])) fun as => .pure _).mono ?_
      rintro _ ⟨us, _, rfl, hus, rfl⟩
      rw [List.append_nil]
      exact (balanced_comma ⟨t, rfl, ht⟩).append hus.balanced
    · exact (Carries.pure _).mono fun _ hts => hts ▸ .nil
    · rintro _ ⟨us, vs, rfl, hus, hvs⟩
      exact hus.append hvs

/-- The token that closes a list is seen at once only if the list is empty. -/
theorem enclosed_carries {expression expression' : Rule Node}
    (h : Carries Phrase expression expression') {closing : TokenKind}
    (hclosing : startsExpression closing = false) (what : Expectation) :
    Carries (ClosedBy closing) (enclosed expression closing what)
      (enclosed expression' closing what) := by
  have hend (items : List Node) : Carries (fun ts => ∃ t, ts = [t] ∧ t.kind = closing)
      (do let _ ← expect closing what; return items : Rule (List Node))
      (do let _ ← expect closing what; return items) := by
    refine (Carries.pure items).afterToken.mono ?_
    rintro _ ⟨us, _, rfl, hus, rfl⟩
    rwa [List.append_nil]
  have hlist := (commaItems_carries h .tooManyArguments itemLimit).bind hend
  intro ts a rest hr
  by_cases hpeek : peekKind ts = closing
  · have hsees (ts : List Token) (hpeek : peekKind ts = closing) :
        sees closing ts = .ok (true, ts) := by
      rw [sees, hpeek]
      simp
    rw [enclosed, bind_ok (hsees ts hpeek)] at hr
    obtain ⟨used, rfl, ⟨t, rfl, ht⟩, hcarry⟩ := hend [] hr
    refine ⟨[t], rfl, ⟨[], t, rfl, .nil, ht⟩, fun rest' hrest => ?_⟩
    rw [enclosed, bind_ok (hsees ([t] ++ rest') ht)]
    exact hcarry rest' hrest
  · have hsees {ts : List Token} (hpeek : peekKind ts ≠ closing) :
        sees closing ts = .ok (false, ts) := by
      simp [sees, hpeek]
    rw [enclosed, bind_ok (hsees hpeek)] at hr
    obtain ⟨_, rfl, ⟨us, vs, rfl, hus, t, rfl, ht⟩, hcarry⟩ := hlist hr
    refine ⟨us ++ [t], rfl, ⟨us, t, rfl, hus.balanced, ht⟩, fun rest' hrest => ?_⟩
    rw [enclosed,
      bind_ok (hsees (by rw [List.append_assoc]; exact hus.peekKind_ne closing hclosing _))]
    exact hcarry rest' hrest

/-- The signs of operators neither end expressions nor stand for parentheses. -/
def Plain (operator? : TokenKind → Option Operator) : Prop :=
  ∀ kind op, operator? kind = some op → stops kind = false ∧ kind ≠ .leftParen

theorem Plain.balanced {operator? : TokenKind → Option Operator} (h : Plain operator?)
    {op : Operator} (hop : operator? t.kind = some op) : Balanced [t] := by
  obtain ⟨hstop, hopen⟩ := h _ _ hop
  have hboth : t.kind.endsLine = false ∧ t.kind ≠ .rightParen := by simpa [stops] using hstop
  exact .token hboth.1 hopen hboth.2

/-- Where no sign comes next, none comes next in the tokens that continue. -/
theorem Plain.none {operator? : TokenKind → Option Operator} (h : Plain operator?)
    {rest rest' : List Token} (hrest : Continues rest rest')
    (hnone : operator? (peekKind rest) = none) : operator? (peekKind rest') = none := by
  rcases hrest with heq | hstop
  · rw [heq, hnone]
  · rw [Option.eq_none_iff_forall_ne_some]
    intro op hop
    rw [(h _ op hop).1] at hstop
    cases hstop

/-- Further operands. There is fuel for all tokens, so the chain ends for want of a sign. -/
theorem leftChainFrom_carries {operand operand' : Rule Node}
    {operator? : TokenKind → Option Operator} (h : Carries Phrase operand operand')
    (hplain : Plain operator?) {fuel : Nat} {left a : Node} {rest : List Token}
    (hfuel : ts.length ≤ fuel) (hr : leftChainFrom operand operator? fuel left ts = .ok (a, rest)) :
    ∃ used, ts = used ++ rest ∧ Balanced used ∧ ∀ rest', Continues rest rest' →
    ∀ fuel', used.length ≤ fuel' →
      leftChainFrom operand' operator? fuel' left (used ++ rest') = .ok (a, rest') := by
  -- without a sign nothing is taken, and no sign comes next in what continues either
  have hends {ts : List Token} {left : Node} (hnone : operator? (peekKind ts) = none)
      (hr : (.ok (left, ts) : Except SyntaxFault (Node × List Token)) = .ok (a, rest)) :
      ∃ used, ts = used ++ rest ∧ Balanced used ∧ ∀ rest', Continues rest rest' →
        ∀ fuel', used.length ≤ fuel' →
        leftChainFrom operand' operator? fuel' left (used ++ rest') = .ok (a, rest') := by
    cases hr
    exact ⟨[], rfl, .nil, fun rest' hrest fuel' _ =>
      leftChainFrom_of_none (hplain.none hrest hnone) fuel' a⟩
  have hfinish : operator? .finish = none := by
    rw [Option.eq_none_iff_forall_ne_some]
    intro op hop
    cases (hplain _ op hop).1
  induction fuel generalizing ts left with
  | zero =>
    obtain rfl := List.eq_nil_of_length_eq_zero (Nat.le_zero.1 hfuel)
    exact hends hfinish hr
  | succ fuel ih =>
    cases ts with
    | nil => exact hends hfinish hr
    | cons t ts =>
      simp only [leftChainFrom] at hr
      cases hop : operator? t.kind with
      | none =>
        simp only [hop] at hr
        exact hends hop hr
      | some op =>
        simp only [hop] at hr
        cases hright : operand ts with
        | error fault => simp [hright] at hr
        | ok p =>
          obtain ⟨right, mid⟩ := p
          simp only [hright] at hr
          obtain ⟨us, rfl, hus, hoperand⟩ := h hright
          have hmid : mid.length ≤ fuel := by
            simp only [List.length_cons, List.length_append] at hfuel
            omega
          obtain ⟨vs, rfl, hvs, hmore⟩ := ih hmid hr
          refine ⟨t :: (us ++ vs), by simp,
            (hplain.balanced hop).append (hus.balanced.append hvs), ?_⟩
          intro rest' hrest fuel' hfuel'
          obtain ⟨fuel', rfl⟩ : ∃ n, fuel' = n + 1 :=
            Nat.exists_eq_succ_of_ne_zero (by rintro rfl; cases hfuel')
          have hlength : vs.length ≤ fuel' := by
            simp only [List.length_cons, List.length_append] at hfuel'
            omega
          have hnext := hoperand (vs ++ rest') (hrest.append vs)
          rw [List.cons_append, List.append_assoc]
          simp only [leftChainFrom, hop, hnext]
          exact hmore rest' hrest fuel' hlength

theorem leftChain_carries {operand operand' : Rule Node} {operator? : TokenKind → Option Operator}
    (h : Carries Phrase operand operand') (hplain : Plain operator?) :
    Carries Phrase (leftChain operand operator?) (leftChain operand' operator?) := by
  let more (operand : Rule Node) (left : Node) : Rule Node := fun ts =>
    leftChainFrom operand operator? ts.length left ts
  have hmore (left : Node) : Carries Balanced (more operand left) (more operand' left) := by
    intro ts a rest hr
    obtain ⟨used, rfl, hused, hcarry⟩ := leftChainFrom_carries h hplain le_rfl hr
    exact ⟨used, rfl, hused, fun rest' hrest => hcarry rest' hrest _ (by simp)⟩
  refine (h.bind hmore).mono ?_
  rintro _ ⟨us, vs, rfl, hus, hvs⟩
  exact hus.append hvs

end Rule

/-! ### The rules for expressions -/

namespace Level

open Rule

/-- What the rules of one level take and give, those of another one take and give as well. -/
structure Carries (l l' : Level) : Prop where
  expression : Rule.Carries Phrase l.expression l'.expression
  negation : Rule.Carries Phrase l.negation l'.negation
  unary : Rule.Carries Phrase l.unary l'.unary

variable {inner inner' : Level}

theorem floor_carries (l : Level) : floor.Carries l := ⟨.fail _ _, .fail _ _, .fail _ _⟩

/-- A token and balanced tokens. -/
theorem phrase_cons {t : Token} {ts : List Token} (hstart : startsExpression t.kind = true)
    (hopen : t.kind ≠ .leftParen) (hts : Balanced ts) : Phrase (t :: ts) := by
  have hplain : t.kind.endsLine = false ∧ t.kind ≠ .rightParen := by
    constructor
    · cases hk : t.kind <;> simp_all [startsExpression, TokenKind.endsLine]
    · rintro hk
      rw [hk] at hstart
      cases hstart
  exact ⟨(Balanced.token hplain.1 hopen hplain.2).append hts, hstart⟩

theorem named_carries (h : inner.Carries inner') (name : String) :
    Rule.Carries Balanced (inner.named name) (inner'.named name) := by
  refine .accepting rfl (fun t ht => ?_) ((Rule.Carries.pure _).mono fun _ hts => hts ▸ .nil)
  refine ((enclosed_carries h.expression rfl .argumentsClose).bind fun args => .pure _).mono ?_
  rintro _ ⟨us, _, rfl, hus, rfl⟩
  rw [List.append_nil]
  exact hus.parenthesized ht

theorem group_carries (h : inner.Carries inner') :
    Rule.Carries (ClosedBy .rightParen) inner.group inner'.group := by
  refine (h.expression.bind fun e => (Rule.Carries.pure e).afterToken).mono ?_
  rintro _ ⟨us, _, rfl, hus, _, _, rfl, ⟨t, rfl, ht⟩, rfl⟩
  exact ⟨us, t, by simp, hus.balanced, ht⟩

theorem elements_carries (h : inner.Carries inner') :
    Rule.Carries Balanced inner.elements inner'.elements := by
  refine ((enclosed_carries h.expression rfl .elementsClose).bind fun es => .pure _).mono ?_
  rintro _ ⟨us, _, rfl, hus, rfl⟩
  rw [List.append_nil]
  exact hus.braced

theorem balanced_word {k : Keyword} {ts : List Token}
    (h : ∃ t : Token, ts = [t] ∧ t.kind = .word k) : Balanced ts := by
  obtain ⟨t, rfl, ht⟩ := h
  exact .token (by rw [ht]; rfl) (by rw [ht]; nofun) (by rw [ht]; nofun)

theorem conditional_carries (h : inner.Carries inner') :
    Rule.Carries Balanced inner.conditional inner'.conditional := by
  refine (h.expression.bind fun guard => Rule.Carries.afterToken (h.expression.bind fun taken =>
    Rule.Carries.afterToken (h.expression.bind fun other => .pure _))).mono ?_
  rintro _
    ⟨us, _, rfl, hus, _, _, rfl, hthen, vs, _, rfl, hvs, _, _, rfl, helse, ws, _, rfl, hws, rfl⟩
  rw [List.append_nil]
  exact hus.balanced.append ((balanced_word hthen).append (hvs.balanced.append
    ((balanced_word helse).append hws.balanced)))

theorem primary_carries (h : inner.Carries inner') :
    Rule.Carries Phrase inner.primary inner'.primary := by
  rintro (_ | ⟨t, ts⟩) a rest hr
  · cases hr
  -- each kind of token has its rule for what comes after it
  have hmore {r r' : Rule Node} {P : List Token → Prop} (hrule : Rule.Carries P r r')
      (hr : r ts = .ok (a, rest)) (hphrase : ∀ used, P used → Phrase (t :: used))
      (hprimary : ∀ ts, inner'.primary (t :: ts) = r' ts) :
      ∃ used, t :: ts = used ++ rest ∧ Phrase used ∧
        ∀ rest', Continues rest rest' → inner'.primary (used ++ rest') = .ok (a, rest') := by
    obtain ⟨used, rfl, hP, hcarry⟩ := hrule hr
    exact ⟨t :: used, rfl, hphrase used hP, fun rest' hrest =>
      (hprimary _).trans (hcarry rest' hrest)⟩
  have hliteral
      (hr : (.ok (.literal t.value, ts) : Except SyntaxFault (Node × List Token)) = .ok (a, rest))
      (hphrase : Phrase [t])
      (hprimary : ∀ ts, inner'.primary (t :: ts) = .ok (.literal t.value, ts)) :=
    hmore (Rule.Carries.pure (.literal t.value)) hr (by rintro _ rfl; exact hphrase) hprimary
  simp only [primary] at hr
  split at hr
  · next hk =>
    exact hliteral hr (phrase_cons (by rw [hk]; rfl) (by rw [hk]; decide) .nil) fun ts => by
      simp only [primary, hk]
  · next hk =>
    exact hliteral hr (phrase_cons (by rw [hk]; rfl) (by rw [hk]; decide) .nil) fun ts => by
      simp only [primary, hk]
  · next hk =>
    exact hliteral hr (phrase_cons (by rw [hk]; rfl) (by rw [hk]; decide) .nil) fun ts => by
      simp only [primary, hk]
  · next hk =>
    exact hmore (named_carries h t.lexeme) hr
      (fun _ => phrase_cons (by rw [hk]; rfl) (by rw [hk]; decide))
      fun ts => by simp only [primary, hk]
  · next hk =>
    exact hmore (group_carries h) hr
      (fun _ hused => ⟨hused.parenthesized hk, by rw [peekKind, hk]; rfl⟩)
      fun ts => by simp only [primary, hk]
  · next hk =>
    exact hmore (elements_carries h) hr
      (fun _ => phrase_cons (by rw [hk]; rfl) (by rw [hk]; decide))
      fun ts => by simp only [primary, hk]
  · next hk =>
    exact hmore (conditional_carries h) hr
      (fun _ => phrase_cons (by rw [hk]; rfl) (by rw [hk]; decide))
      fun ts => by simp only [primary, hk]
  · cases hr

/-- An operator before its operand, or what is read without it. -/
theorem prefixed_carries {kind : TokenKind} {op : Operator} {operand operand' r r' : Rule Node}
    (hstart : startsExpression kind = true) (hstop : stops kind = false) (hopen : kind ≠ .leftParen)
    (h : Rule.Carries Phrase operand operand') (hr : Rule.Carries Phrase r r') :
    Rule.Carries Phrase
      (do if ← accept kind then (do let e ← operand; return .operation op [e]) else r)
      (do if ← accept kind then (do let e ← operand'; return .operation op [e]) else r') := by
  refine .accepting hstop (fun t ht => ?_) hr
  refine (h.bind fun e => .pure _).mono ?_
  rintro _ ⟨us, _, rfl, hus, rfl⟩
  rw [List.append_nil]
  exact phrase_cons (ht ▸ hstart) (ht ▸ hopen) hus.balanced

theorem plain_signs (place : Nat) : Plain (signAt? place) := by
  intro kind op hop
  have hlevel := le_signLevel hop
  have hsign : signLevel kind ≠ 0 := by
    intro hzero
    obtain rfl : place = 0 := Nat.le_zero.1 (hzero ▸ hlevel)
    cases hop
  constructor
  · cases kind <;> first | rfl | exact absurd rfl hsign
  · rintro rfl
    exact hsign rfl

theorem unaryRule_carries (h : inner.Carries inner') :
    Rule.Carries Phrase inner.unaryRule inner'.unaryRule :=
  prefixed_carries rfl rfl nofun h.unary (primary_carries h)

theorem comparisonRule_carries (h : inner.Carries inner') :
    Rule.Carries Phrase inner.comparisonRule inner'.comparisonRule := by
  have hpower := leftChain_carries (unaryRule_carries h) (plain_signs 7)
  have hfactor := leftChain_carries hpower (plain_signs 6)
  have hterm := leftChain_carries hfactor (plain_signs 5)
  have hconversion := leftChain_carries hterm (plain_signs 4)
  exact leftChain_carries hconversion (plain_signs 3)

theorem negationRule_carries (h : inner.Carries inner') :
    Rule.Carries Phrase inner.negationRule inner'.negationRule :=
  prefixed_carries rfl rfl nofun h.negation (comparisonRule_carries h)

theorem above_carries (h : inner.Carries inner') : inner.above.Carries inner'.above where
  expression := leftChain_carries (negationRule_carries h) (plain_signs 1)
  negation := negationRule_carries h
  unary := unaryRule_carries h

/-- With more room, all rules take and give the same. -/
theorem withRoom_carries {room more : Nat} (hle : room ≤ more) :
    (withRoom room).Carries (withRoom more) := by
  induction room generalizing more with
  | zero => exact floor_carries _
  | succ room ih =>
    obtain ⟨more, rfl⟩ : ∃ n, more = n + 1 :=
      Nat.exists_eq_succ_of_ne_zero (by rintro rfl; cases hle)
    exact above_carries (ih (Nat.le_of_succ_le_succ hle))

/-! ### Expressions in parentheses -/

variable {t u : Token} {ts rest : List Token} {v : Node}

theorem starts_group (ht : t.kind = .leftParen) (place : Nat) (ts : List Token) :
    Starts place (peekKind (t :: ts)) := by
  rw [peekKind, ht]
  constructor
  · rfl
  · intro hk
    cases hk
  · intro hk
    cases hk

/-- What stands in parentheses is read wherever a level is demanded. -/
theorem ruleAt_group (place : Nat) (hplace : place ≤ 8) (ht : t.kind = .leftParen)
    (hu : u.kind = .rightParen) (h : inner.expression (ts ++ u :: rest) = .ok (v, u :: rest))
    (hstop : stops (peekKind rest) = true) :
    inner.ruleAt place (t :: (ts ++ u :: rest)) = .ok (v, rest) := by
  have hgroup : inner.ruleAt 9 (t :: (ts ++ u :: rest)) = granted 0 0 (.ok (v, rest)) := by
    show inner.primary (t :: (ts ++ u :: rest)) = _
    simp only [primary, ht]
    rw [group, bind_ok h, bind_ok (expect_of_eq hu _ _)]
    rfl
  have hsign : signLevel (peekKind rest) = 0 := by
    cases hk : peekKind rest <;> first | rfl | (rw [hk] at hstop; cases hstop)
  have hfollows : Follows place rest := by
    refine ⟨by rw [hsign]; exact Nat.zero_le _, ?_⟩
    intro hk
    rw [hk] at hstop
    cases hstop
  have hnone : signAt? place (peekKind rest) = none := by
    rw [Option.eq_none_iff_forall_ne_some]
    exact fun op hop => absurd hstop (Bool.eq_false_iff.1 (plain_signs place _ op hop).1)
  have hread := ruleAt_of_lt (Nat.lt_succ_of_le hplace) le_rfl hgroup (starts_group ht 9 _) hfollows
    (goesOn_of_none hnone)
  exact hread.trans (granted_zero 0 _)

/-- Where an operand of a level cannot be read, an expression of the level before cannot be read. -/
theorem ruleAt_error {place : Nat} {fault : SyntaxFault}
    (h : inner.ruleAt (place + 1) ts = .error fault) (hstarts : Starts (place + 1) (peekKind ts))
    (hplace : place ≤ 8) : inner.ruleAt place ts = .error fault := by
  have hbind {α : Type} {r : Rule Node} {f : Node → Rule α} (hr : r ts = .error fault) :
      (r >>= f) ts = .error fault := by
    rw [bind_apply, hr]
  match place, hplace with
  | 0, _ => exact h
  | 1, _ => exact hbind h
  | 2, _ => exact (branch_of_ne (fun hk => absurd (hstarts.notWord hk) (by decide)) _ _).trans h
  | 3, _ => exact hbind h
  | 4, _ => exact hbind h
  | 5, _ => exact hbind h
  | 6, _ => exact hbind h
  | 7, _ => exact hbind h
  | 8, _ => exact (branch_of_ne (fun hk => absurd (hstarts.minus hk) (by decide)) _ _).trans h

/-- What is read after an opening parenthesis starts with an expression and a
closing parenthesis. -/
theorem exists_group {room : Nat} {r : Node × List Token} (ht : t.kind = .leftParen)
    (h : (withRoom (room + 1)).expression (t :: ts) = .ok r) :
    ∃ inside u rest v, ts = inside ++ u :: rest ∧ u.kind = .rightParen ∧ Phrase inside ∧
      (withRoom room).expression ts = .ok (v, u :: rest) := by
  cases hgroup : (withRoom room).group ts with
  | error fault =>
    -- the fault would be one of the whole expression
    have hprimary : (withRoom room).ruleAt 9 (t :: ts) = .error fault := by
      show (withRoom room).primary (t :: ts) = _
      simp only [primary, ht]
      exact hgroup
    have hall (n : Nat) (hn : n ≤ 9) : (withRoom room).ruleAt (9 - n) (t :: ts) = .error fault := by
      induction n with
      | zero => exact hprimary
      | succ n ih =>
        have hplace : 9 - n = 9 - (n + 1) + 1 := by omega
        exact ruleAt_error (hplace ▸ ih (by omega)) (starts_group ht _ ts) (by omega)
    have hfault := h.symm.trans (hall 9 le_rfl)
    cases hfault
  | ok p =>
    obtain ⟨v, mid, hinside, hclose⟩ := bind_eq_ok hgroup
    obtain ⟨u, rest, hexpect, -⟩ := bind_eq_ok hclose
    obtain ⟨rfl, hu⟩ := expect_eq_ok hexpect
    obtain ⟨inside, rfl, hphrase, -⟩ := (withRoom_carries (le_refl room)).expression hinside
    exact ⟨inside, u, rest, v, rfl, hu, hphrase, hinside⟩

end Level
end LineBasic
