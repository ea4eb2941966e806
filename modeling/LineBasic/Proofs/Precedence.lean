import LineBasic.Proofs.Printing
import LineBasic.Proofs.SourceLines

/-!
# Reading what was printed

The rules for expressions read the words of a formula back as its tree. A rule of one level reads an
operand with the rule of the next level, and then goes on as long as signs of its own level follow.
So what a rule does with the words of a formula depends on what comes after them, and it is
described by what it does with the rest.

* `Level.ruleAt`, `Level.signAt?` : the rule and the signs of a level.
* `Rule.granted` : an outcome that needs some room, and otherwise is that the text nests too deep.
* `Level.GoesOn` : how the rule of a level ends, when it has read its first operand.
* `Level.ruleAt_of_lt` : from the rule of a level to the rules of the levels before it.
* `Formula.ReadAt` : the words of a formula are read back where a level is demanded.
  `Formula.readAt` : they always are.
* `printed_formulas_read_back` : an assignment of a printed formula, as a program.
-/

namespace LineBasic

/-! ### Outcomes that need room -/

namespace Rule

variable {α β : Type}

/-- An outcome, if there is room for the levels that it needs. -/
def granted (need room : Nat) (x : Except SyntaxFault α) : Except SyntaxFault α :=
  if need ≤ room then x else .error .tooDeep

@[simp] theorem granted_zero (room : Nat) (x : Except SyntaxFault α) : granted 0 room x = x :=
  if_pos (Nat.zero_le room)

theorem granted_granted (a b room : Nat) (x : Except SyntaxFault α) :
    granted a room (granted b room x) = granted (max a b) room x := by
  unfold granted
  by_cases ha : a ≤ room
  · by_cases hb : b ≤ room
    · rw [if_pos ha, if_pos hb, if_pos (Nat.max_le.2 ⟨ha, hb⟩)]
    · rw [if_pos ha, if_neg hb, if_neg fun h => hb (Nat.max_le.1 h).2]
  · rw [if_neg ha, if_neg fun h => ha (Nat.max_le.1 h).1]

theorem bind_granted {r : Rule α} {f : α → Rule β} {ts rest : List Token} {a : α} {need room : Nat}
    (h : r ts = granted need room (.ok (a, rest))) :
    (r >>= f) ts = granted need room (f a rest) := by
  rw [bind_apply, h]
  unfold granted
  by_cases hneed : need ≤ room
  · rw [if_pos hneed, if_pos hneed]
  · rw [if_neg hneed, if_neg hneed]

theorem bind_ok {r : Rule α} {f : α → Rule β} {ts rest : List Token} {a : α}
    (h : r ts = .ok (a, rest)) :
    (r >>= f) ts = f a rest := by
  rw [bind_apply, h]

theorem accept_of_eq {t : Token} {kind : TokenKind} (h : t.kind = kind) (ts : List Token) :
    accept kind (t :: ts) = .ok (true, ts) := if_pos h

theorem accept_of_ne {kind : TokenKind} {ts : List Token} (h : peekKind ts ≠ kind) :
    accept kind ts = .ok (false, ts) := by
  cases ts with
  | nil => rfl
  | cons t ts => exact if_neg h

theorem branch_of_eq {t : Token} {kind : TokenKind} (h : t.kind = kind) (yes no : Rule α)
    (ts : List Token) :
    (do if ← accept kind then yes else no : Rule α) (t :: ts) = yes ts :=
      bind_ok (accept_of_eq h ts)

theorem branch_of_ne {kind : TokenKind} {ts : List Token} (h : peekKind ts ≠ kind)
    (yes no : Rule α) :
    (do if ← accept kind then yes else no : Rule α) ts = no ts := bind_ok (accept_of_ne h)

theorem expect_of_eq {t : Token} {kind : TokenKind} (h : t.kind = kind) (what : Expectation)
    (ts : List Token) : expect kind what (t :: ts) = .ok (t, ts) := if_pos h

/-- Without a sign there is nothing more. -/
theorem leftChainFrom_of_none {operand : Rule Node} {operator? : TokenKind → Option Operator}
    {ts : List Token} (hnone : operator? (peekKind ts) = none) (fuel : Nat) (left : Node) :
    leftChainFrom operand operator? fuel left ts = .ok (left, ts) := by
  cases fuel with
  | zero => rfl
  | succ fuel =>
    cases ts with
    | nil => rfl
    | cons t ts =>
      have hnone : operator? t.kind = none := hnone
      simp only [leftChainFrom, hnone]

/-- A sign, and the operand after it. -/
theorem leftChainFrom_granted {operand : Rule Node} {operator? : TokenKind → Option Operator}
    {t : Token} {op : Operator} {ts rest : List Token} {right : Node} {need room : Nat}
    (hop : operator? t.kind = some op) (h : operand ts = granted need room (.ok (right, rest)))
    (fuel : Nat) (left : Node) :
    leftChainFrom operand operator? (fuel + 1) left (t :: ts) =
      granted need room
        (leftChainFrom operand operator? fuel (.operation op [left, right]) rest) := by
  simp only [leftChainFrom, hop, h]
  unfold granted
  by_cases hneed : need ≤ room
  · simp only [if_pos hneed]
  · simp only [if_neg hneed]

theorem leftChain_granted {operand : Rule Node} {operator? : TokenKind → Option Operator}
    {ts rest : List Token} {left : Node} {x : Except SyntaxFault (Node × List Token)}
    {need room : Nat} (h : operand ts = granted need room (.ok (left, rest)))
    (more : leftChainFrom operand operator? rest.length left rest = x) :
    leftChain operand operator? ts = granted need room x := by
  rw [← more]
  exact bind_granted (f := fun left ts => leftChainFrom operand operator? ts.length left ts) h

end Rule

namespace Level

open Rule

/-! ### Levels -/

/-- The rule that reads what binds as tightly as a level demands. -/
def ruleAt (inner : Level) : Nat → Rule Node
  | 0 => inner.logicRule
  | 1 => inner.logicRule
  | 2 => inner.negationRule
  | 3 => inner.comparisonRule
  | 4 => inner.conversionRule
  | 5 => inner.termRule
  | 6 => inner.factorRule
  | 7 => inner.powerRule
  | 8 => inner.unaryRule
  | _ => inner.primary

/-- The operators between operands of a level. -/
def signAt? : Nat → TokenKind → Option Operator
  | 1 => logicSign?
  | 3 => comparisonSign?
  | 4 => conversionSign?
  | 5 => termSign?
  | 6 => factorSign?
  | 7 => powerSign?
  | _ => fun _ => none

/-- The level of the operators with a kind of sign. -/
def signLevel : TokenKind → Nat
  | .word .andWord => 1
  | .word .orWord => 1
  | .equal => 3
  | .notEqual => 3
  | .greater => 3
  | .greaterEqual => 3
  | .less => 3
  | .lessEqual => 3
  | .word .asWord => 4
  | .plus => 5
  | .minus => 5
  | .star => 6
  | .slash => 6
  | .backslash => 6
  | .word .modWord => 6
  | .caret => 7
  | _ => 0

theorem le_signLevel {place : Nat} {kind : TokenKind} {op : Operator}
    (h : signAt? place kind = some op) :
    place ≤ signLevel kind := by
  unfold signAt? at h
  split at h
  · unfold logicSign? at h
    split at h <;> simp_all [signLevel]
  · unfold comparisonSign? at h
    split at h <;> simp_all [signLevel]
  · unfold conversionSign? at h
    split at h <;> simp_all [signLevel]
  · unfold termSign? at h
    split at h <;> simp_all [signLevel]
  · unfold factorSign? at h
    split at h <;> simp_all [signLevel]
  · unfold powerSign? at h
    split at h <;> simp_all [signLevel]
  · cases h

theorem signAt?_of_lt {place : Nat} {kind : TokenKind} (h : signLevel kind < place) :
    signAt? place kind = none := by
  rw [Option.eq_none_iff_forall_ne_some]
  exact fun op hop => absurd (le_signLevel hop) (Nat.not_le.2 h)

/-- A text can start with a token of this kind, if it binds as tightly as a level demands. -/
structure Starts (place : Nat) (kind : TokenKind) : Prop where
  starts : startsExpression kind = true
  notWord : kind = .word .notWord → place ≤ 2
  minus : kind = .minus → place ≤ 8

theorem Starts.mono {place place' : Nat} {kind : TokenKind} (h : Starts place kind)
    (hle : place' ≤ place) :
    Starts place' kind :=
  ⟨h.starts, fun hk => hle.trans (h.notWord hk), fun hk => hle.trans (h.minus hk)⟩

/-- What comes after words that were read where a level is demanded: no sign of a tighter level, and
no parenthesis, which would make a name a call. -/
structure Follows (place : Nat) (rest : List Token) : Prop where
  sign : signLevel (peekKind rest) ≤ place
  noCall : peekKind rest ≠ .leftParen

theorem Follows.mono {place place' : Nat} {rest : List Token} (h : Follows place rest)
    (hle : place ≤ place') : Follows place' rest := ⟨h.sign.trans hle, h.noCall⟩

/-- A token that is no sign and no parenthesis can follow everywhere. -/
theorem follows_cons {place : Nat} {t : Token} {kind : TokenKind} (hkind : t.kind = kind)
    (hsign : signLevel kind = 0) (hcall : kind ≠ .leftParen) (rest : List Token) :
    Follows place (t :: rest) := by
  subst hkind
  exact ⟨(Nat.le_of_eq hsign).trans (Nat.zero_le _), hcall⟩

/-- After its first operand, the rule of a level ends like this. -/
def GoesOn (inner : Level) (place : Nat) (left : Node) (rest : List Token)
    (x : Except SyntaxFault (Node × List Token)) : Prop :=
  ∀ fuel, rest.length ≤ fuel →
    leftChainFrom (inner.ruleAt (place + 1)) (signAt? place) fuel left rest = x

section Lifting

variable {inner : Level} {place need room : Nat} {left : Node} {ts rest : List Token}
  {x : Except SyntaxFault (Node × List Token)}

/-- Without a sign of the level there is nothing more. -/
theorem goesOn_of_none (h : signAt? place (peekKind rest) = none) :
    GoesOn inner place left rest (.ok (left, rest)) :=
  fun fuel _ => leftChainFrom_of_none h fuel left

theorem GoesOn.eq (h : GoesOn inner place left rest x)
    (hnone : signAt? place (peekKind rest) = none) :
    x = .ok (left, rest) :=
  have hends : GoesOn inner place left rest (.ok (left, rest)) := goesOn_of_none hnone
  (h _ le_rfl).symm.trans (hends _ le_rfl)

/-- A rule passes on what the rule of the next level reads, and goes on from there. -/
theorem ruleAt_of_succ (h : inner.ruleAt (place + 1) ts = granted need room (.ok (left, rest)))
    (starts : Starts (place + 1) (peekKind ts)) (more : GoesOn inner place left rest x)
    (hplace : place ≤ 8) :
    inner.ruleAt place ts = granted need room x := by
  have hchain := leftChain_granted h (more _ le_rfl)
  match place, hplace with
  | 0, _ =>
    rw [more.eq rfl]
    exact h
  | 1, _ => exact hchain
  | 2, _ =>
    rw [more.eq rfl, ← h]
    exact branch_of_ne (fun hk => absurd (starts.notWord hk) (by decide)) _ _
  | 3, _ => exact hchain
  | 4, _ => exact hchain
  | 5, _ => exact hchain
  | 6, _ => exact hchain
  | 7, _ => exact hchain
  | 8, _ =>
    rw [more.eq rfl, ← h]
    exact branch_of_ne (fun hk => absurd (starts.minus hk) (by decide)) _ _

/-- So do all rules of the levels before. -/
theorem ruleAt_of_lt {place' : Nat} (hlt : place < place') (hplace : place' ≤ 9)
    (h : inner.ruleAt place' ts = granted need room (.ok (left, rest)))
    (starts : Starts place' (peekKind ts)) (follows : Follows place rest)
    (more : GoesOn inner place left rest x) : inner.ruleAt place ts = granted need room x := by
  obtain ⟨k, rfl⟩ := Nat.exists_eq_add_of_lt hlt
  induction k with
  | zero => exact ruleAt_of_succ h starts more (by omega)
  | succ k ih =>
    have hsign : signAt? (place + k + 1) (peekKind rest) = none :=
      signAt?_of_lt (Nat.lt_of_le_of_lt follows.sign (by omega))
    have hstep := ruleAt_of_succ h starts (goesOn_of_none hsign) (by omega)
    exact ih (by omega) (by omega) hstep (starts.mono (Nat.le_succ _))

end Lifting

/-! ### Nested rules -/

/-- The rules with room for some levels, inside which a rule of one more level is read. -/
theorem withRoom_apply {rule : Level → Rule Node} {place : Nat}
    (hfloor : rule floor = Rule.fail .tooDeep)
    (habove : ∀ inner : Level, rule inner.above = inner.ruleAt place) {need : Nat} {ts : List Token}
    {r : Node × List Token}
    (h : ∀ room, (withRoom room).ruleAt place ts = granted need room (.ok r)) (room : Nat) :
    rule (withRoom room) ts = granted (need + 1) room (.ok r) := by
  cases room with
  | zero =>
    rw [withRoom, hfloor]
    rfl
  | succ room =>
    rw [withRoom, habove, h]
    simp [granted]

end Level

/-! ### The first word of a formula -/

theorem Connective.level_bounds (s : Connective) : 1 ≤ s.level ∧ s.level ≤ 7 := by
  obtain ⟨op, level, tight⟩ := s
  cases op <;> cases tight <;> decide

theorem Connective.signAt? (s : Connective) :
    Level.signAt? s.level s.op.sign = some s.op ∧ Level.signLevel s.op.sign = s.level ∧
      s.op.sign ≠ .leftParen := by
  obtain ⟨op, level, tight⟩ := s
  cases op <;> cases tight <;> exact ⟨rfl, rfl, nofun⟩

namespace Formula

open Rule Level

theorem level_le (e : Formula) : e.level ≤ 9 := by
  cases e with
  | binary s left right => exact s.level_bounds.2.trans (by decide)
  | _ => exact of_decide_eq_true rfl

/-- A formula starts with a word with which an expression of its level can start. -/
theorem bare_starts (e : Formula) : ∃ w ws, e.bare = w :: ws ∧ Starts e.level w.kind := by
  have hplain {place : Nat} {kind : TokenKind} (h : startsExpression kind = true)
      (hnot : kind ≠ .word .notWord)
      (hminus : kind ≠ .minus) : Starts place kind :=
        ⟨h, fun hk => absurd hk hnot, fun hk => absurd hk hminus⟩
  induction e with
  | not e ih => exact ⟨_, _, rfl, rfl, fun _ => le_rfl, nofun⟩
  | negate e ih => exact ⟨_, _, rfl, rfl, nofun, fun _ => le_rfl⟩
  | binary s left right ihl ihr =>
    rcases Nat.lt_or_ge left.level s.level with hlt | hge
    · refine ⟨_, _, congrArg (· ++ _) (words_of_lt hlt), hplain rfl nofun nofun⟩
    · obtain ⟨w, ws, hbare, hstarts⟩ := ihl
      exact ⟨w, _, congrArg (· ++ _) ((words_of_le hge).trans hbare), hstarts.mono hge⟩
  | _ => exact ⟨_, _, rfl, hplain rfl nofun nofun⟩

/-- The same in a place that demands a level. -/
theorem words_start (e : Formula) (place : Nat) :
    ∃ w ws, e.words place = w :: ws ∧ Starts place w.kind := by
  rcases Nat.lt_or_ge e.level place with hlt | hge
  · exact ⟨_, _, words_of_lt hlt, rfl, nofun, nofun⟩
  · obtain ⟨w, ws, hbare, hstarts⟩ := e.bare_starts
    exact ⟨w, ws, (words_of_le hge).trans hbare, hstarts.mono hge⟩

theorem starts_of_words {e : Formula} {place : Nat} {ts : List Token}
    (hts : ts.map Token.word = e.words place) (rest : List Token) :
    Starts place (peekKind (ts ++ rest)) := by
  obtain ⟨w, ws, hwords, hstarts⟩ := e.words_start place
  obtain ⟨t, ts', rfl, rfl, -⟩ := List.map_eq_cons_iff.1 (hts.trans hwords)
  exact hstarts

/-! ### Reading formulas -/

/-- Where a level is demanded, the words of a formula are read as its tree, if there is room for the
levels that they open, and the rule goes on with what comes after them. -/
def ReadAt (e : Formula) (place : Nat) : Prop :=
  ∀ (room : Nat) (ts rest : List Token) (x : Except SyntaxFault (Node × List Token)),
    ts.map Token.word = e.words place → Follows place rest →
    GoesOn (withRoom room) place e.node rest x →
    (withRoom room).ruleAt place (ts ++ rest) = granted (e.depthIn place) room x

section Reading

variable {e : Formula} {place room : Nat} {ts rest : List Token}

/-- What is read inside something else needs one more level. -/
theorem ReadAt.nested (h : e.ReadAt place) {rule : Level → Rule Node}
    (hfloor : rule floor = Rule.fail .tooDeep)
    (habove : ∀ inner : Level, rule inner.above = inner.ruleAt place)
    (hsign : ∀ kind, signAt? place kind = none) (hts : ts.map Token.word = e.words place)
    (follows : Follows place rest) :
    rule (withRoom room) (ts ++ rest) = granted (e.depthIn place + 1) room (.ok (e.node, rest)) :=
  withRoom_apply hfloor habove
    (fun room => h room ts rest _ hts follows (goesOn_of_none (hsign _))) room

/-- A whole expression inside something else. -/
theorem ReadAt.expression (h : e.ReadAt 0) (room : Nat) (hts : ts.map Token.word = e.bare)
    (follows : Follows 0 rest) :
    (withRoom room).expression (ts ++ rest) = granted (e.depth + 1) room (.ok (e.node, rest)) := by
  rw [← words_of_le (Nat.zero_le e.level)] at hts
  rw [← depthIn_of_le (Nat.zero_le e.level)]
  exact h.nested rfl (fun _ => rfl) (fun _ => rfl) hts follows

/-- A formula that is read where its own level is demanded is read in all places. -/
theorem readAt_of_level (h : e.ReadAt e.level) {place : Nat} (hplace : place ≤ 8) :
    e.ReadAt place := by
  have hloose {place : Nat} (hle : place ≤ e.level) : e.ReadAt place := by
    intro room ts rest x hts follows more
    rw [words_of_le hle, ← words_of_le le_rfl] at hts
    rw [depthIn_of_le hle, ← depthIn_of_le le_rfl]
    rcases Nat.lt_or_eq_of_le hle with hlt | rfl
    · have hsign : signAt? e.level (peekKind rest) = none :=
        signAt?_of_lt (Nat.lt_of_le_of_lt follows.sign hlt)
      exact ruleAt_of_lt hlt e.level_le
        (h room ts rest _ hts (follows.mono hle) (goesOn_of_none hsign))
        (starts_of_words hts rest) follows more
    · exact h room ts rest x hts follows more
  rcases Nat.lt_or_ge e.level place with hlt | hge
  · -- in parentheses it is a whole expression again
    intro room ts rest x hts follows more
    rw [words_of_lt hlt] at hts
    obtain ⟨t, ts', rfl, ht, hts'⟩ := List.map_eq_cons_iff.1 hts
    obtain ⟨inside, last, rfl, hinside, hlast⟩ := List.map_eq_append_iff.1 hts'
    obtain ⟨u, rfl, hu⟩ := List.map_eq_singleton_iff.1 hlast
    have hopen : t.kind = .leftParen := congrArg Word.kind ht
    have hclose : u.kind = .rightParen := congrArg Word.kind hu
    have hgroup : (withRoom room).ruleAt 9 (t :: (inside ++ [u]) ++ rest) =
        granted (e.depth + 1) room (.ok (e.node, rest)) := by
      have hread : (withRoom room).expression (inside ++ u :: rest) =
          granted (e.depth + 1) room (.ok (e.node, u :: rest)) :=
        (hloose (Nat.zero_le _)).expression room hinside (follows_cons hclose rfl (by decide) _)
      show (withRoom room).primary (t :: (inside ++ [u] ++ rest)) = _
      rw [List.append_assoc, List.singleton_append]
      simp only [primary, hopen]
      rw [group, bind_granted hread, bind_ok (expect_of_eq hclose _ _)]
      rfl
    rw [depthIn_of_lt hlt]
    have hstart : Starts 9 t.kind := hopen ▸ ⟨rfl, by decide, by decide⟩
    exact ruleAt_of_lt (Nat.lt_of_le_of_lt hplace (by decide)) le_rfl hgroup hstart follows more
  · exact hloose hge

/-- What the rule for expressions without operators reads. -/
theorem readAt_primary (hlevel : e.level = 9)
    (h : ∀ {room ts rest}, ts.map Token.word = e.bare → Follows 9 rest →
      (withRoom room).primary (ts ++ rest) = granted e.depth room (.ok (e.node, rest))) :
    e.ReadAt e.level := by
  intro room ts rest x hts follows more
  rw [words_of_le le_rfl] at hts
  rw [hlevel] at follows more
  rw [depthIn_of_le le_rfl, more.eq rfl, hlevel]
  exact h hts follows

theorem readAt_literal {w : Word} (hbare : e.bare = [w]) (hlevel : e.level = 9)
    (hdepth : e.depth = 0) (hnode : e.node = .literal w.value)
    (hkind : w.kind = .integer ∨ w.kind = .decimal ∨ w.kind = .text) :
    e.ReadAt e.level := by
  refine readAt_primary hlevel fun hts _ => ?_
  obtain ⟨t, rfl, ht⟩ := List.map_eq_singleton_iff.1 (hts.trans hbare)
  rw [hdepth, granted_zero, hnode, ← ht]
  have hkind : t.kind = .integer ∨ t.kind = .decimal ∨ t.kind = .text := by rwa [← ht] at hkind
  rcases hkind with hkind | hkind | hkind <;>
    simp only [List.singleton_append, primary, hkind] <;> rfl

theorem readAt_name (x : Identifier) : (name x).ReadAt (name x).level := by
  refine readAt_primary rfl fun {room ts rest} hts follows => ?_
  obtain ⟨t, rfl, ht⟩ := List.map_eq_singleton_iff.1 hts
  have hkind : t.kind = .name := congrArg Word.kind ht
  have htext : t.lexeme = x.text := congrArg Word.text ht
  rw [List.singleton_append]
  simp only [primary, hkind, htext]
  exact branch_of_ne follows.noCall _ _

/-! ### Lists of formulas -/

theorem arguments_read (room : Nat) {es : List Formula} (hne : es ≠ []) (hes : ∀ e ∈ es, e.ReadAt 0)
    {limit : Nat} (few : es.length ≤ limit) (f : SyntaxFault)
    (hts : ts.map Token.word = separated (es.map bare)) (follows : Follows 0 rest)
    (last : peekKind rest ≠ .comma) :
    commaItems (withRoom room).expression f limit (ts ++ rest) =
      granted (largest (es.map fun e => e.depth + 1)) room (.ok (es.map node, rest)) := by
  induction es generalizing ts limit with
  | nil => exact absurd rfl hne
  | cons e es ih =>
    have he := hes e (.head _)
    cases limit with
    | zero => cases few
    | succ limit =>
      cases es with
      | nil =>
        rw [commaItems, bind_granted (he.expression room hts follows), branch_of_ne last]
        rfl
      | cons e' es =>
        obtain ⟨ts₁, ts₂, rfl, hts₁, hts₂⟩ := List.map_eq_append_iff.1 hts
        obtain ⟨t, ts₃, rfl, ht, hts₃⟩ := List.map_eq_cons_iff.1 hts₂
        have hcomma : t.kind = .comma := congrArg Word.kind ht
        have hmore := ih (List.cons_ne_nil _ _) (fun e he => hes e (.tail _ he))
          (Nat.le_of_succ_le_succ few) hts₃
        have hitem := he.expression room hts₁ (follows_cons hcomma rfl (by decide) (ts₃ ++ rest))
        rw [List.append_assoc, List.cons_append, commaItems, bind_granted hitem,
          branch_of_eq hcomma, bind_granted hmore]
        exact granted_granted ..

/-- Formulas between commas, up to the token that closes the list. -/
theorem enclosed_read (room : Nat) {es : List Formula} (hes : ∀ e ∈ es, e.ReadAt 0)
    (few : es.length ≤ itemLimit) {u : Token} (hu : u.kind = .rightParen ∨ u.kind = .rightBrace)
    (what : Expectation) (hts : ts.map Token.word = separated (es.map bare)) (rest : List Token) :
    enclosed (withRoom room).expression u.kind what (ts ++ u :: rest) =
      granted (largest (es.map fun e => e.depth + 1)) room (.ok (es.map node, rest)) := by
  have hclose (items : List Node) :
      (do let _ ← expect u.kind what; return items : Rule (List Node)) (u :: rest) =
        .ok (items, rest) :=
    bind_ok (expect_of_eq rfl what rest)
  cases es with
  | nil =>
    obtain rfl : ts = [] := List.map_eq_nil_iff.1 hts
    have hsees : sees u.kind (u :: rest) = .ok (true, u :: rest) := by simp [sees, peekKind]
    rw [List.nil_append, enclosed, bind_ok hsees]
    exact hclose []
  | cons e es =>
    -- the list is not empty, so what comes first is not the token that closes it
    have hstart : startsExpression (peekKind (ts ++ u :: rest)) = true := by
      cases es with
      | nil =>
        rw [List.map_singleton, separated, ← words_of_le (Nat.zero_le e.level)] at hts
        exact (starts_of_words hts _).starts
      | cons e' es =>
        obtain ⟨ts₁, ts₂, rfl, hts₁, -⟩ := List.map_eq_append_iff.1 hts
        rw [← words_of_le (Nat.zero_le e.level)] at hts₁
        rw [List.append_assoc]
        exact (starts_of_words hts₁ _).starts
    have hsees : sees u.kind (ts ++ u :: rest) = .ok (false, ts ++ u :: rest) := by
      have hne : peekKind (ts ++ u :: rest) ≠ u.kind := by
        intro heq
        rw [heq] at hstart
        rcases hu with hu | hu <;> rw [hu] at hstart <;> cases hstart
      simp [sees, hne]
    have hfollows : Follows 0 (u :: rest) := by
      rcases hu with hu | hu <;> exact follows_cons hu rfl (by decide) rest
    have hlast : peekKind (u :: rest) ≠ .comma := by
      rcases hu with hu | hu <;> simp [peekKind, hu]
    have hitems :=
      arguments_read room (List.cons_ne_nil e es) hes few .tooManyArguments hts hfollows hlast
    rw [enclosed, bind_ok hsees]
    exact (bind_granted hitems).trans (congrArg (granted _ room) (hclose _))

theorem map_ofFn {α : Type} {count : Nat} (items : Fin count → Formula) (f : Formula → α) :
    (List.ofFn fun i => f (items i)) = (List.ofFn items).map f := List.map_ofFn.symm

theorem readAt_call (f : Identifier) {count : Nat} (few : count ≤ itemLimit)
    {args : Fin count → Formula} (h : ∀ i, (args i).ReadAt 0) :
    (call f count few args).ReadAt (call f count few args).level := by
  refine readAt_primary rfl fun {room ts rest} hts _ => ?_
  simp only [bare, map_ofFn args bare] at hts
  obtain ⟨t, ts₁, rfl, ht, hts₁⟩ := List.map_eq_cons_iff.1 hts
  obtain ⟨t', ts₂, rfl, ht', hts₂⟩ := List.map_eq_cons_iff.1 hts₁
  obtain ⟨inside, ts₃, rfl, hinside, hts₃⟩ := List.map_eq_append_iff.1 hts₂
  obtain ⟨u, rfl, hu⟩ := List.map_eq_singleton_iff.1 hts₃
  have hkind : t.kind = .name := congrArg Word.kind ht
  have htext : t.lexeme = f.text := congrArg Word.text ht
  have hopen : t'.kind = .leftParen := congrArg Word.kind ht'
  have hclose : u.kind = .rightParen := congrArg Word.kind hu
  have hargs := enclosed_read room (List.forall_mem_ofFn_iff.2 h)
    ((List.length_ofFn ..).trans_le few) (.inl hclose) .argumentsClose hinside rest
  rw [hclose] at hargs
  simp only [List.cons_append, List.append_assoc, List.nil_append, primary, hkind, htext]
  rw [named, branch_of_eq hopen, bind_granted hargs]
  simp only [node, depth, map_ofFn args node, map_ofFn args fun e => e.depth + 1]
  rfl

theorem readAt_array {count : Nat} (few : count ≤ itemLimit) {items : Fin count → Formula}
    (h : ∀ i, (items i).ReadAt 0) :
    (array count few items).ReadAt (array count few items).level := by
  refine readAt_primary rfl fun {room ts rest} hts _ => ?_
  simp only [bare, map_ofFn items bare] at hts
  obtain ⟨t, ts₁, rfl, ht, hts₁⟩ := List.map_eq_cons_iff.1 hts
  obtain ⟨inside, ts₂, rfl, hinside, hts₂⟩ := List.map_eq_append_iff.1 hts₁
  obtain ⟨u, rfl, hu⟩ := List.map_eq_singleton_iff.1 hts₂
  have hopen : t.kind = .leftBrace := congrArg Word.kind ht
  have hclose : u.kind = .rightBrace := congrArg Word.kind hu
  have hitems := enclosed_read room (List.forall_mem_ofFn_iff.2 h)
    ((List.length_ofFn ..).trans_le few) (.inr hclose) .elementsClose hinside rest
  rw [hclose] at hitems
  simp only [List.cons_append, List.append_assoc, List.nil_append, primary, hopen]
  rw [elements, bind_granted hitems]
  simp only [node, depth, map_ofFn items node, map_ofFn items fun e => e.depth + 1]
  rfl

/-! ### Operators -/

theorem readAt_not (h : e.ReadAt 2) : (not e).ReadAt (not e).level := by
  intro room ts rest x hts follows more
  obtain ⟨t, ts, rfl, ht, hts⟩ := List.map_eq_cons_iff.1 hts
  have hkind : t.kind = .word .notWord := congrArg Word.kind ht
  have hoperand : (withRoom room).negation (ts ++ rest) =
      granted (e.depthIn 2 + 1) room (.ok (e.node, rest)) :=
    h.nested rfl (fun _ => rfl) (fun _ => rfl) hts follows
  rw [more.eq rfl]
  show (withRoom room).negationRule (t :: (ts ++ rest)) = _
  rw [negationRule, branch_of_eq hkind, bind_granted hoperand]
  rfl

theorem readAt_negate (h : e.ReadAt 8) : (negate e).ReadAt (negate e).level := by
  intro room ts rest x hts follows more
  obtain ⟨t, ts, rfl, ht, hts⟩ := List.map_eq_cons_iff.1 hts
  have hkind : t.kind = .minus := congrArg Word.kind ht
  have hoperand : (withRoom room).unary (ts ++ rest) =
      granted (e.depthIn 8 + 1) room (.ok (e.node, rest)) :=
    h.nested rfl (fun _ => rfl) (fun _ => rfl) hts follows
  rw [more.eq rfl]
  show (withRoom room).unaryRule (t :: (ts ++ rest)) = _
  rw [unaryRule, branch_of_eq hkind, bind_granted hoperand]
  rfl

/-- The rule of the level goes on after the left operand, and reads the right one with the
rule of the next level. -/
theorem readAt_binary (s : Connective) {left right : Formula} (hleft : left.ReadAt s.level)
    (hright : right.ReadAt (s.level + 1)) :
    (binary s left right).ReadAt (binary s left right).level := by
  intro room ts rest x hts follows more
  rw [words_of_le le_rfl] at hts
  obtain ⟨tsl, ts', rfl, htsl, hts'⟩ := List.map_eq_append_iff.1 hts
  obtain ⟨t, tsr, rfl, ht, htsr⟩ := List.map_eq_cons_iff.1 hts'
  obtain ⟨hsign, hlevel, hcall⟩ := s.signAt?
  have hkind : t.kind = s.op.sign := congrArg Word.kind ht
  have hnone : signAt? (s.level + 1) (peekKind rest) = none :=
    signAt?_of_lt (Nat.lt_succ_of_le follows.sign)
  have hoperand := hright room tsr rest _ htsr (follows.mono (Nat.le_succ _)) (goesOn_of_none hnone)
  have hmore : GoesOn (withRoom room) s.level left.node (t :: (tsr ++ rest))
      (granted (right.depthIn (s.level + 1)) room x) := by
    intro fuel hfuel
    cases fuel with
    | zero => cases hfuel
    | succ fuel =>
      have hfuel : rest.length ≤ fuel := by simp at hfuel; omega
      exact (leftChainFrom_granted (hkind ▸ hsign) hoperand fuel left.node).trans
        (congrArg _ (more fuel hfuel))
  have hread := hleft room tsl (t :: (tsr ++ rest)) _ htsl
    ⟨by simp [peekKind, hkind, hlevel], by simpa [peekKind, hkind] using hcall⟩ hmore
  rw [granted_granted] at hread
  rw [depthIn_of_le le_rfl, List.append_assoc]
  exact hread

theorem readAt_choose {guard yes no : Formula} (hguard : guard.ReadAt 0) (hyes : yes.ReadAt 0)
    (hno : no.ReadAt 0) : (choose guard yes no).ReadAt (choose guard yes no).level := by
  intro room ts rest x hts follows more
  obtain ⟨t, ts, rfl, ht, hts⟩ := List.map_eq_cons_iff.1 hts
  obtain ⟨tsg, ts₁, rfl, htsg, hts₁⟩ := List.map_eq_append_iff.1 hts
  obtain ⟨t₁, ts₂, rfl, ht₁, hts₂⟩ := List.map_eq_cons_iff.1 hts₁
  obtain ⟨tsy, ts₃, rfl, htsy, hts₃⟩ := List.map_eq_append_iff.1 hts₂
  obtain ⟨t₂, tsn, rfl, ht₂, htsn⟩ := List.map_eq_cons_iff.1 hts₃
  have hif : t.kind = .word .ifWord := congrArg Word.kind ht
  have hthen : t₁.kind = .word .thenWord := congrArg Word.kind ht₁
  have helse : t₂.kind = .word .elseWord := congrArg Word.kind ht₂
  have hread : (withRoom room).ruleAt 9 (t :: (tsg ++ t₁ :: (tsy ++ t₂ :: tsn)) ++ rest) =
      granted (choose guard yes no).depth room (.ok ((choose guard yes no).node, rest)) := by
    have hg :=
      hguard.expression room htsg (follows_cons hthen rfl (by decide) (tsy ++ t₂ :: (tsn ++ rest)))
    have hy := hyes.expression room htsy (follows_cons helse rfl (by decide) (tsn ++ rest))
    have hn := hno.expression room htsn follows
    show (withRoom room).primary (t :: ((tsg ++ t₁ :: (tsy ++ t₂ :: tsn)) ++ rest)) = _
    simp only [primary, hif, List.append_assoc, List.cons_append]
    rw [conditional, bind_granted hg, bind_ok (expect_of_eq hthen _ _), bind_granted hy,
      bind_ok (expect_of_eq helse _ _), bind_granted hn]
    have hdepth : max (max (guard.depth + 1) (yes.depth + 1)) (no.depth + 1) =
        (choose guard yes no).depth := by
      simp only [depth]
      omega
    rw [granted_granted, granted_granted, hdepth]
    rfl
  have hstart : Starts 9 t.kind := hif ▸ ⟨rfl, by decide, by decide⟩
  exact ruleAt_of_lt (Nat.zero_lt_succ 8) le_rfl hread hstart follows more

end Reading

/-- The words of a formula are read back in all places. -/
theorem readAt (e : Formula) {place : Nat} (hplace : place ≤ 8) : e.ReadAt place := by
  induction e generalizing place with
  | integer n nonneg => exact readAt_of_level (readAt_literal rfl rfl rfl rfl (.inl rfl)) hplace
  | decimal d => exact readAt_of_level (readAt_literal rfl rfl rfl rfl (.inr (.inl rfl))) hplace
  | quoted q => exact readAt_of_level (readAt_literal rfl rfl rfl rfl (.inr (.inr rfl))) hplace
  | name x => exact readAt_of_level (readAt_name x) hplace
  | call f count few args ih =>
    exact readAt_of_level (readAt_call f few fun i => ih i (Nat.zero_le _)) hplace
  | array count few items ih =>
    exact readAt_of_level (readAt_array few fun i => ih i (Nat.zero_le _)) hplace
  | negate e ih => exact readAt_of_level (readAt_negate (ih le_rfl)) hplace
  | not e ih => exact readAt_of_level (readAt_not (ih (by decide))) hplace
  | binary s left right ihl ihr =>
    obtain ⟨-, hle⟩ := s.level_bounds
    exact readAt_of_level (readAt_binary s (ihl (by omega)) (ihr (by omega))) hplace
  | choose guard yes no ihg ihy ihn =>
    exact readAt_of_level
      (readAt_choose (ihg (by decide)) (ihy (by decide)) (ihn (by decide))) hplace

end Formula

/-! ### Assignments as programs -/

section Assigning

open Rule Level

/-- A statement of a line that is a node of its own. -/
theorem Reading.line_simple {use : Includer} {t : Token} {ts rest : List Token} {n : Node}
    {need room : Nat} (inLine : t.kind.endsLine = false)
    (h : Rule.statement (t :: ts) = granted need room (.ok (.simple n, rest))) (p : Progress) :
    Reading.line use (t :: ts) p =
      if need ≤ room then (p.add n, none) else (p, some (.grammatical t.line .tooDeep)) := by
  simp only [Reading.line, inLine, h, Bool.false_eq_true, if_false]
  unfold granted
  by_cases hneed : need ≤ room
  · simp only [if_pos hneed]
    rfl
  · simp only [if_neg hneed]

/-- A text of one line. -/
theorem Reading.text_line {use : Includer} {first last : Nat} {source : String} {ts : List Token}
    {u : Token} (hscan : scan first source = ⟨ts ++ [u], last, none⟩)
    (honline : Tokens.OnLine first ts) (hu : u.kind.endsLine = true) (p : Progress) :
    Reading.text use first source p = Reading.line use (ts ++ [u]) p := by
  have hsplit : splitLines (ts ++ [u]) = [ts ++ [u]] := splitLines_append honline hu
  simp only [Reading.text, hscan, hsplit, Reading.lines]
  rcases Reading.line use (ts ++ [u]) p with ⟨p', _ | e⟩ <;> rfl

/-- The value of an assignment is read up to the end of the line. -/
theorem assignment_read (e : Formula) (x : String) {ts : List Token}
    (hts : ts.map Token.word = e.bare) {u : Token} (hu : u.kind = .finish) :
    assignment x (ts ++ [u]) =
      granted (e.depth + 1) nestingLimit
        (.ok (.simple (.operation .assign [.ofName x, e.node]), [u])) := by
  have hread :
      Rule.expression (ts ++ [u]) = granted (e.depth + 1) nestingLimit (.ok (e.node, [u])) :=
    (e.readAt (Nat.zero_le 8)).expression nestingLimit hts (follows_cons hu rfl (by decide) [])
  have hend : lineEnd [u] = .ok ((), [u]) := by simp [lineEnd, peekKind, hu, TokenKind.endsLine]
  rw [assignment, bind_granted hread, bind_ok hend]
  rfl

/-- The text of an assignment is scanned into the name, the sign and the words of the value. -/
theorem scan_assignment {e : Formula} {text : String} (h : Spelling e.bare text.toList) :
    ∃ (t t' u : Token) (ts : List Token),
      scan 1 ("X = " ++ text) = ⟨t :: t' :: ts ++ [u], 1, none⟩ ∧
      t.word = .name "X" ∧ t'.word = .plain .equal "=" ∧ ts.map Token.word = e.bare ∧
      u.kind = .finish ∧
      Tokens.OnLine 1 (t :: t' :: ts) := by
  have hequal : (Word.plain .equal "=").Scans := Word.scans_sign (c := '=') rfl rfl rfl
  have hname : (Word.name "X").Scans := Word.scans_name (by decide) (by decide)
  have hspelling : Spelling (.name "X" :: .plain .equal "=" :: e.bare) ("X = " ++ text).toList := by
    have hvalue := (h.space.cons (w := .plain .equal "=") (Spelling.endsBefore_space _ _)).space
    simpa [Word.name, Word.plain] using hvalue.cons (w := .name "X") (Spelling.endsBefore_space _ _)
  have hscans := List.forall_mem_cons.2 ⟨hname, List.forall_mem_cons.2 ⟨hequal, e.scans_bare⟩⟩
  obtain ⟨ts, column, hscan, hwords, honline⟩ := hspelling.scanFrom hscans ⟨1, 0⟩
  obtain ⟨t, ts, rfl, ht, hts⟩ := List.map_eq_cons_iff.1 hwords
  obtain ⟨t', ts, rfl, ht', hts⟩ := List.map_eq_cons_iff.1 hts
  exact ⟨t, t', _, ts, hscan, ht, ht', hts, rfl, honline⟩

end Assigning

/-- An assignment of a formula to a name, in any text that consists of the words of the formula,
such as the one in which it is printed, is read as the assignment of its tree, if the text opens no
more levels inside each other than are allowed; the whole formula is one of them. Otherwise it is
reported that it nests too deep. -/
theorem printed_formulas_read_back (catalog : Catalog) (e : Formula) :
    Spelling e.bare e.print.toList ∧
    (∀ text : String, Spelling e.bare text.toList →
      (Reader.start.parse catalog ("X = " ++ text)).2 =
        if e.depth + 1 ≤ Level.nestingLimit then .ok [.operation .assign [.ofName "X", e.node]]
        else .error (.grammatical 1 .tooDeep)) ∧
    (Error.grammatical 1 .tooDeep).message = "[line 1] Too much nesting in expression." := by
  refine ⟨.spaced e.bare, fun text h => ?_, by decide⟩
  obtain ⟨t, t', u, ts, hscan, ht, ht', hts, hu, honline⟩ := scan_assignment h
  have hkind : t.kind = .name := congrArg Word.kind ht
  have hname : t.lexeme = "X" := congrArg Word.text ht
  have hequal : t'.kind = .equal := congrArg Word.kind ht'
  have hstatement : Rule.statement (t :: (t' :: ts ++ [u])) =
      Rule.granted (e.depth + 1) Level.nestingLimit
        (.ok (.simple (.operation .assign [.ofName "X", e.node]), [u])) := by
    simp only [Rule.statement, hkind, List.cons_append, Rule.namedStatement, hequal, hname]
    exact assignment_read e "X" hts hu
  obtain ⟨inLine, hline⟩ := honline t (.head _)
  have hfinish : u.kind.endsLine = true := by rw [hu]; rfl
  simp only [Reader.parse, Reader.start, Reading.piece, Reading.text_line hscan honline hfinish]
  rw [List.cons_append, Reading.line_simple inLine hstatement, hline]
  by_cases hdepth : e.depth + 1 ≤ Level.nestingLimit
  · simp only [if_pos hdepth]
    rfl
  · simp only [if_neg hdepth]

/-- A sum stands in parentheses under a product, and a product does not under a sum. -/
example :
    let sum : Formula := .binary ⟨.plus, 5, rfl⟩ (.integer 1 (by decide)) (.integer 2 (by decide))
    (Formula.binary ⟨.times, 6, rfl⟩ sum (.negate sum)).print = "( 1 + 2 ) * - ( 1 + 2 )" ∧
      (Formula.binary ⟨.plus, 5, rfl⟩ sum sum).print = "1 + 2 + ( 1 + 2 )" := by
  decide

end LineBasic
