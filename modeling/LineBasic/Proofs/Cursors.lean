import LineBasic.Proofs.Cuts
import LineBasic.Proofs.Desk
import LineBasic.Proofs.Walks

/-!
# Cursors among tokens

What is done with the tokens of a text, one thing at a time: each is safe where the cursor
is, and leaves it inside.

* `Tokens.EndsOnce` : kept by what is left of tokens; `Tokens.endsOnce_scan` : the
  tokens of a scan end once.
* `Cursor.Within`, `Cursor.OnLine`, `Cursor.PastLine` : where the cursor is while a
  line is read and after it.
* `Walk.EndsIn` : how a walk ends, with sound notes.
* `Walk.advance_ends`, `Walk.nextToken_ends`, `Walk.matchOne_of_eq`,
  `Walk.stepBack_ends` : single tokens.
* `Walk.kindAfterClosing_ends` : the token after a closing parenthesis.
-/

namespace LineBasic

/-! ### Tokens that end once -/

namespace Tokens

variable {t : Token} {ts us vs : List Token}

theorem EndsOnce.ne_nil (h : EndsOnce ts) : ts ≠ [] := by
  obtain ⟨us, e, rfl, -⟩ := h
  simp

theorem EndsOnce.tail (h : EndsOnce (t :: ts)) (ht : t.kind ≠ .finish) : EndsOnce ts := by
  obtain ⟨_ | ⟨u, us⟩, e, heq, he, hus⟩ := h
  · cases heq
    exact absurd he ht
  · cases heq
    exact ⟨us, e, rfl, he, fun v hv => hus v (List.mem_cons_of_mem _ hv)⟩

theorem EndsOnce.eq_nil (h : EndsOnce (t :: ts)) (ht : t.kind = .finish) : ts = [] := by
  obtain ⟨_ | ⟨u, us⟩, e, heq, -, hus⟩ := h
  · cases heq
    rfl
  · cases heq
    exact absurd ht (hus t List.mem_cons_self)

theorem EndsOnce.drop (h : EndsOnce ts) {n : Nat} (hn : n ≤ ts.length - 1) :
    EndsOnce (ts.drop n) := by
  obtain ⟨us, e, rfl, he, hus⟩ := h
  rw [List.length_append, List.length_singleton, Nat.add_sub_cancel] at hn
  exact ⟨us.drop n, e, List.drop_append_of_le_length hn, he, fun t ht =>
    hus t (List.mem_of_mem_drop ht)⟩

/-- Something follows a token that is not the end. -/
theorem EndsOnce.of_append (h : EndsOnce (us ++ t :: vs)) (ht : t.kind ≠ .finish) :
    EndsOnce vs := by
  induction us with
  | nil => exact h.tail ht
  | cons u us ih =>
    refine ih (h.tail fun hu => ?_)
    simpa using h.eq_nil hu

/-- The tokens of a text without a fault end once. -/
theorem endsOnce_scan {first : Nat} {source : String} (scans : (scan first source).error = none) :
    EndsOnce (scan first source).tokens := by
  obtain ⟨ts, rest, hcut, rfl | ⟨f, stands⟩⟩ := exists_cut first [] source.toList
  · have hscan : scan first source = _ := hcut.scanFrom_of_end
    rw [hscan]
    refine ⟨ts, _, rfl, rfl, fun t ht => ?_⟩
    obtain ⟨before, slice, after, -, lexeme, -⟩ := hcut.exists_slice ht
    exact lexeme.kind_ne_finish
  · obtain ⟨read, -, hscan⟩ := hcut.scanFrom_of_fault stands
    have herror := congrArg Scan.error (show scan first source = _ from hscan)
    rw [scans] at herror
    cases herror

theorem length_firstLine (ts : List Token) :
    (firstLine ts).length + (afterLine ts).length = ts.length := by
  induction ts with
  | nil => rfl
  | cons t ts ih =>
    by_cases ht : t.kind.endsLine = true
    · simp only [firstLine, afterLine, ht, if_true, List.length_cons, List.length_nil]
      omega
    · simp only [firstLine, afterLine, ht, List.length_cons]
      simp only [Bool.false_eq_true, if_false, List.length_cons]
      omega

end Tokens

theorem TokenKind.ne_finish_of_endsLine {k : TokenKind} (h : k.endsLine = false) : k ≠ .finish := by
  rintro rfl
  cases h

theorem TokenKind.ne_newline_of_endsLine {k : TokenKind} (h : k.endsLine = false) :
    k ≠ .newline := by
  rintro rfl
  cases h

theorem TokenKind.eq_of_endsLine {k : TokenKind} (h : k.endsLine = true) :
    k = .newline ∨ k = .finish := by
  cases k
  case newline => exact .inl rfl
  case finish => exact .inr rfl
  all_goals cases h

/-! ### Places among tokens -/

namespace Cursor

variable {c c' c'' : Cursor} {t : Token} {ts : List Token}

/-- The tokens that are left. -/
def rest (c : Cursor) : List Token := c.tokens.drop c.place

/-- What is left of the line. -/
def line (c : Cursor) : List Token := Tokens.firstLine c.rest

/-- The cursor one token further. -/
def moved (c : Cursor) : Cursor := { c with place := c.place + 1 }

/-- The cursor at the start of a statement. -/
def begun (c : Cursor) : Cursor := { c with start := c.place }

theorem rest_moved (hrest : c.rest = t :: ts) : c.moved.rest = ts := by
  show c.tokens.drop (c.place + 1) = ts
  rw [← List.tail_drop]
  exact congrArg List.tail hrest

theorem getElem?_place (hrest : c.rest = t :: ts) : c.tokens[c.place]? = some t := by
  rw [← List.head?_drop]
  exact congrArg List.head? hrest

theorem length_rest (c : Cursor) : c.rest.length = c.tokens.length - c.place := List.length_drop

theorem Inside.rest_ends (h : c.Inside) : Tokens.EndsOnce c.rest := h.ends.drop h.bound

theorem Inside.ends_cons (h : c.Inside) (hrest : c.rest = t :: ts) : Tokens.EndsOnce (t :: ts) :=
  hrest ▸ h.rest_ends

theorem Inside.exists_next (h : c.Inside) : ∃ t ts, c.rest = t :: ts :=
  List.exists_cons_of_ne_nil h.rest_ends.ne_nil

/-- A token that is not the end of the text can be passed. -/
theorem Inside.moved (h : c.Inside) (hrest : c.rest = t :: ts) (ht : t.kind ≠ .finish) :
    c.moved.Inside := by
  have hmore := List.length_pos_iff.2 ((h.ends_cons hrest).tail ht).ne_nil
  have hlength := c.length_rest
  rw [hrest, List.length_cons] at hlength
  refine ⟨h.ends, ?_⟩
  show c.place + 1 ≤ c.tokens.length - 1
  omega

theorem peekKind_line (hrest : c.rest = t :: ts) : Rule.peekKind c.line = t.kind := by
  rw [line, Tokens.peekKind_firstLine, hrest]
  rfl

theorem line_of_endsLine (hrest : c.rest = t :: ts) (ht : t.kind.endsLine = true) :
    c.line = [t] := by
  rw [line, hrest, Tokens.firstLine, if_pos ht]

theorem line_cons (hrest : c.rest = t :: ts) (ht : t.kind.endsLine = false) :
    c.line = t :: c.moved.line := by
  rw [line, line, rest_moved hrest, hrest, Tokens.firstLine, if_neg (by simp [ht])]

theorem afterLine_moved (hrest : c.rest = t :: ts) (ht : t.kind.endsLine = false) :
    Tokens.afterLine c.moved.rest = Tokens.afterLine c.rest := by
  rw [rest_moved hrest, hrest, Tokens.afterLine, if_neg (by simp [ht])]

/-- While a statement is read, the cursor is inside, and at the first token of the
statement or after it. -/
structure Within (c : Cursor) : Prop where
  inside : c.Inside
  begun : c.start ≤ c.place
  first : ∃ t, c.tokens[c.start]? = some t ∧ t.kind ≠ .finish

/-- The end of the text is not the first token of a statement. -/
theorem Within.start_lt (h : c.Within) (hrest : c.rest = t :: ts) (ht : t.kind = .finish) :
    c.start < c.place := by
  refine lt_of_le_of_ne h.begun fun heq => ?_
  obtain ⟨u, hu, hne⟩ := h.first
  rw [heq, getElem?_place hrest] at hu
  cases hu
  exact hne ht

/-- From one place to a later one on the same line. -/
structure OnLine (c c' : Cursor) : Prop where
  within : c'.Within
  tokens : c'.tokens = c.tokens
  forward : c.place ≤ c'.place
  sameLine : Tokens.afterLine c'.rest = Tokens.afterLine c.rest

theorem OnLine.refl (h : c.Within) : c.OnLine c := ⟨h, rfl, Nat.le_refl _, rfl⟩

theorem OnLine.trans (h : c.OnLine c') (h' : c'.OnLine c'') : c.OnLine c'' :=
  ⟨h'.within, h'.tokens.trans h.tokens, Nat.le_trans h.forward h'.forward,
    h'.sameLine.trans h.sameLine⟩

theorem OnLine.length_rest_le (h : c.OnLine c') : c'.rest.length ≤ c.rest.length := by
  rw [length_rest, length_rest, h.tokens]
  exact Nat.sub_le_sub_left h.forward _

theorem OnLine.length_line_le (h : c.OnLine c') : c'.line.length ≤ c.line.length := by
  have hc := Tokens.length_firstLine c.rest
  have hc' := Tokens.length_firstLine c'.rest
  have hle := h.length_rest_le
  rw [h.sameLine] at hc'
  show (Tokens.firstLine c'.rest).length ≤ (Tokens.firstLine c.rest).length
  omega

theorem OnLine.moved (h : c.Within) (hrest : c.rest = t :: ts) (ht : t.kind.endsLine = false) :
    c.OnLine c.moved :=
  ⟨⟨h.inside.moved hrest (TokenKind.ne_finish_of_endsLine ht), Nat.le_succ_of_le h.begun, h.first⟩,
    rfl, Nat.le_succ _, afterLine_moved hrest ht⟩

/-- From a place to that after the end of the line. The end of the text is not passed. -/
structure PastLine (c c' : Cursor) : Prop where
  inside : c'.Inside
  tokens : c'.tokens = c.tokens
  rest : c'.rest = Tokens.afterLine c.rest ∨
    Tokens.afterLine c.rest = [] ∧ ∃ e, c'.rest = [e] ∧ e.kind = .finish

theorem PastLine.of_sameLine (h : c'.PastLine c'') (tokens : c'.tokens = c.tokens)
    (sameLine : Tokens.afterLine c'.rest = Tokens.afterLine c.rest) : c.PastLine c'' :=
  ⟨h.inside, h.tokens.trans tokens, sameLine ▸ h.rest⟩

end Cursor

/-! ### How a walk ends -/

namespace Walk

variable {ε ε' α β : Type} {c c' : Cursor} {t : Token} {ts : List Token}

/-- The walk keeps sound notes and ends in the given way. -/
structure EndsIn (w : Walk ε α) (c : Cursor) (x : Ending ε α) : Prop where
  sound : ∀ n ∈ (w c).notes, n.Sound
  ending : (w c).ending = x

theorem EndsIn.of_apply {w : Walk ε α} {notes : List Note} {x : Ending ε α}
    (happly : w c = ⟨notes, x⟩) (sound : ∀ n ∈ notes, n.Sound) : w.EndsIn c x := by
  constructor
  · rw [happly]
    exact sound
  · rw [happly]

theorem EndsIn.pure (a : α) (c : Cursor) : EndsIn (Pure.pure a : Walk ε α) c (.done a c) :=
  .of_apply rfl fun _ hn => absurd hn List.not_mem_nil

theorem EndsIn.fault (e : ε) (c : Cursor) : EndsIn (Walk.fault e : Walk ε α) c (.fault e) :=
  .of_apply rfl fun _ hn => absurd hn List.not_mem_nil

theorem EndsIn.bind {w : Walk ε α} {f : α → Walk ε β} {a : α} {x : Ending ε β}
    (hw : w.EndsIn c (.done a c')) (hf : (f a).EndsIn c' x) : (w >>= f).EndsIn c x := by
  have happly : (w >>= f) c = ⟨(w c).notes ++ (f a c').notes, (f a c').ending⟩ := by
    show (w c).andThen f = _
    simp only [Trip.andThen, hw.ending]
  rw [hf.ending] at happly
  exact .of_apply happly fun n hn => (List.mem_append.1 hn).elim (hw.sound n) (hf.sound n)

theorem EndsIn.bind_fault {w : Walk ε α} (f : α → Walk ε β) {e : ε} (hw : w.EndsIn c (.fault e)) :
    (w >>= f).EndsIn c (.fault e) := by
  refine .of_apply ?_ hw.sound
  show (w c).andThen f = _
  simp only [Trip.andThen, hw.ending]

theorem EndsIn.mapFault_done {w : Walk ε α} {a : α} (f : ε → ε') (h : w.EndsIn c (.done a c')) :
    (mapFault f w).EndsIn c (.done a c') := .of_apply (by simp only [mapFault, h.ending]) h.sound

theorem EndsIn.mapFault_fault {w : Walk ε α} {e : ε} (f : ε → ε') (h : w.EndsIn c (.fault e)) :
    (mapFault f w).EndsIn c (.fault (f e)) := .of_apply (by simp only [mapFault, h.ending]) h.sound

/-- A note of a cursor that is inside is sound. -/
theorem sound_at (hc : c.Inside) : ∀ n ∈ [Note.at c], n.Sound := by
  intro n hn
  cases List.mem_singleton.1 hn
  exact hc

/-! ### Looking and moving -/

theorem here_ends (hc : c.Inside) : (here : Walk ε Cursor).EndsIn c (.done c c) :=
  ⟨sound_at hc, rfl⟩

theorem tokenAt_ends (hc : c.Inside) {n : Nat} (h : c.tokens[n]? = some t) :
    (tokenAt n : Walk ε Token).EndsIn c (.done t c) :=
      .of_apply (by simp only [tokenAt, h]) (sound_at hc)

theorem peek_ends (hc : c.Inside) (hrest : c.rest = t :: ts) :
    (peek : Walk ε Token).EndsIn c (.done t c) :=
  (here_ends hc).bind (tokenAt_ends hc (Cursor.getElem?_place hrest))

theorem isAtEnd_ends (hc : c.Inside) (hrest : c.rest = t :: ts) :
    (isAtEnd : Walk ε Bool).EndsIn c (.done (t.kind = .finish) c) :=
      (peek_ends hc hrest).bind (.pure _ c)

theorem check_ends (hc : c.Inside) (hrest : c.rest = t :: ts) {kind : TokenKind}
    (hk : kind ≠ .finish) :
    (check kind : Walk ε Bool).EndsIn c (.done (t.kind = kind) c) := by
  refine (isAtEnd_ends hc hrest).bind ?_
  by_cases ht : t.kind = .finish
  · have hne : ¬ t.kind = kind := fun h => hk (h.symm.trans ht)
    simp only [ht, decide_true, if_true]
    rw [← ht, decide_eq_false hne]
    exact .pure false c
  · simp only [ht, decide_false]
    exact (peek_ends hc hrest).bind (.pure _ c)

theorem forward_ends (hc : c.moved.Inside) : (forward : Walk ε Unit).EndsIn c (.done () c.moved) :=
  ⟨sound_at hc, rfl⟩

theorem previous_ends (hc : c.Inside) {n : Nat} (hplace : c.place = n + 1)
    (h : c.tokens[n]? = some t) :
    (previous : Walk ε Token).EndsIn c (.done t c) := by
  refine (here_ends hc).bind ?_
  rw [hplace]
  exact tokenAt_ends hc h

/-- The token before the cursor is the one that was passed. -/
theorem previous_moved (hc : c.moved.Inside) (hrest : c.rest = t :: ts) :
    (previous : Walk ε Token).EndsIn c.moved (.done t c.moved) :=
  previous_ends hc rfl (Cursor.getElem?_place hrest)

/-- There is a token before the end of the text if a statement has started before it. -/
theorem previous_of_within (hc : c.Within) (hrest : c.rest = t :: ts) (ht : t.kind = .finish) :
    ∃ u, (previous : Walk ε Token).EndsIn c (.done u c) := by
  have hlt := hc.start_lt hrest ht
  have hbound := hc.inside.bound
  have hplace : c.place = c.place - 1 + 1 := by omega
  have hlength : c.place - 1 < c.tokens.length := by omega
  exact ⟨_, previous_ends hc.inside hplace (List.getElem?_eq_getElem hlength)⟩

theorem advance_ends (hc : c.Inside) (hrest : c.rest = t :: ts) (ht : t.kind ≠ .finish) :
    (advance : Walk ε Token).EndsIn c (.done t c.moved) := by
  have hmoved := hc.moved hrest ht
  refine (isAtEnd_ends hc hrest).bind ?_
  simp only [ht, decide_false]
  exact (forward_ends hmoved).bind (previous_moved hmoved hrest)

theorem nextToken_ends (hc : c.Inside) (hrest : c.rest = t :: ts) (ht : t.kind ≠ .finish) :
    (nextToken : Walk ε Token).EndsIn c (.done t c.moved) :=
  (peek_ends hc hrest).bind ((advance_ends hc hrest ht).bind (.pure t _))

/-- The end of the text is given, but not passed. -/
theorem nextToken_of_finish (hc : c.Within) (hrest : c.rest = t :: ts) (ht : t.kind = .finish) :
    (nextToken : Walk ε Token).EndsIn c (.done t c) := by
  refine (peek_ends hc.inside hrest).bind ?_
  obtain ⟨u, hu⟩ := previous_of_within (ε := ε) hc hrest ht
  have hadvance : (advance : Walk ε Token).EndsIn c (.done u c) := by
    refine (isAtEnd_ends hc.inside hrest).bind ?_
    simp only [ht, decide_true, if_true]
    exact hu
  exact hadvance.bind (.pure t c)

theorem matchOne_of_eq (hc : c.Inside) (hrest : c.rest = t :: ts) {kind : TokenKind}
    (hk : kind ≠ .finish) (ht : t.kind = kind) :
    (matchOne kind : Walk ε Bool).EndsIn c (.done true c.moved) := by
  refine (check_ends hc hrest hk).bind ?_
  simp only [ht, decide_true, if_true]
  exact (advance_ends hc hrest (ht ▸ hk)).bind (.pure true _)

theorem matchOne_of_ne (hc : c.Inside) (hrest : c.rest = t :: ts) {kind : TokenKind}
    (hk : kind ≠ .finish) (ht : t.kind ≠ kind) :
    (matchOne kind : Walk ε Bool).EndsIn c (.done false c) := by
  refine (check_ends hc hrest hk).bind ?_
  simp only [ht, decide_false]
  exact .pure false c

theorem matchEither_of_mem (hc : c.Inside) (hrest : c.rest = t :: ts) {kinds : List TokenKind}
    (hkinds : ∀ k ∈ kinds, k ≠ .finish) (ht : t.kind ∈ kinds) :
    (matchEither kinds : Walk ε Bool).EndsIn c (.done true c.moved) := by
  induction kinds with
  | nil => cases ht
  | cons k ks ih =>
    by_cases hk : t.kind = k
    · exact (matchOne_of_eq hc hrest (hkinds k List.mem_cons_self) hk).bind (.pure true _)
    · refine (matchOne_of_ne hc hrest (hkinds k List.mem_cons_self) hk).bind ?_
      exact ih (fun k' hk' => hkinds k' (List.mem_cons_of_mem _ hk'))
        ((List.mem_cons.1 ht).resolve_left hk)

theorem matchEither_of_not_mem (hc : c.Inside) (hrest : c.rest = t :: ts) {kinds : List TokenKind}
    (hkinds : ∀ k ∈ kinds, k ≠ .finish) (ht : t.kind ∉ kinds) :
    (matchEither kinds : Walk ε Bool).EndsIn c (.done false c) := by
  induction kinds with
  | nil => exact .pure false c
  | cons k ks ih =>
    obtain ⟨hne, hnot⟩ := not_or.1 (mt List.mem_cons.2 ht)
    refine (matchOne_of_ne hc hrest (hkinds k List.mem_cons_self) hne).bind ?_
    exact ih (fun k' hk' => hkinds k' (List.mem_cons_of_mem _ hk')) hnot

theorem atStatementEnd_ends (hc : c.Inside) (hrest : c.rest = t :: ts) :
    (atStatementEnd : Walk ε Bool).EndsIn c (.done t.kind.endsLine c) := by
  refine (isAtEnd_ends hc hrest).bind ?_
  by_cases ht : t.kind = .finish
  · simp only [ht, decide_true, if_true]
    exact .pure true c
  · simp only [ht, decide_false]
    have hends : t.kind.endsLine = decide (t.kind = .newline) := by
      cases hk : t.kind <;> first | rfl | exact absurd hk ht
    rw [hends]
    exact check_ends hc hrest (by decide)

/-- A step back to the first token of the statement. -/
theorem stepBack_ends (hc : c.Inside) (hstart : c.place = c.start) :
    (stepBack : Walk ε Unit).EndsIn c.moved (.done () c) := by
  refine ⟨fun n hn => ?_, rfl⟩
  cases List.mem_singleton.1 hn
  exact ⟨hc, hstart⟩

/-! ### The parenthesis that closes -/

/-- Among tokens that start at a place, the place that a walk has found and the tokens that the rule
has found belong to the same closing parenthesis. -/
inductive ClosesAt (ts : List Token) (place : Nat) : Option Nat → Option (List Token) → Prop
  | none : ClosesAt ts place none none
  | some {us : List Token} {t : Token} {vs : List Token} (split : ts = us ++ t :: vs)
      (closing : t.kind = .rightParen) :
      ClosesAt ts place (some (place + us.length)) (some (Tokens.firstLine vs))

theorem ClosesAt.cons {place : Nat} {x : Option Nat} {after : Option (List Token)} (t : Token)
    (h : ClosesAt ts (place + 1) x after) : ClosesAt (t :: ts) place x after := by
  cases h with
  | none => exact .none
  | @some us u vs split closing =>
    have hplace : place + 1 + us.length = place + (t :: us).length := by
      rw [List.length_cons]
      omega
    rw [hplace]
    exact .some (congrArg (t :: ·) split) closing

/-- Inside open parentheses, the closing one is looked for on the line only, as the rule does it. -/
theorem closingPlaceFrom_ends (depth place : Nat) (ts : List Token) (c : Cursor) :
    ∃ x, (closingPlaceFrom (depth + 1) place ts : Walk ε (Option Nat)).EndsIn c (.done x c) ∧
      ClosesAt ts place x (Rule.afterClosing (depth + 1) (Tokens.firstLine ts)) := by
  induction ts generalizing depth place with
  | nil => exact ⟨none, .pure none c, .none⟩
  | cons t ts ih =>
    by_cases hends : t.kind.endsLine = true
    · refine ⟨none, ?_, ?_⟩
      · rcases TokenKind.eq_of_endsLine hends with hk | hk <;> simp only [closingPlaceFrom, hk] <;>
          exact .pure none c
      · simp only [Tokens.firstLine, hends, if_true, Rule.afterClosing]
        exact .none
    · rw [Tokens.firstLine, if_neg hends]
      simp only [Rule.afterClosing, hends]
      by_cases hopen : t.kind = .leftParen
      · obtain ⟨x, hx, hcloses⟩ := ih (depth + 1) (place + 1)
        simp only [closingPlaceFrom, hopen]
        exact ⟨x, hx, hcloses.cons t⟩
      · by_cases hclose : t.kind = .rightParen
        · cases depth with
          | zero =>
            simp only [closingPlaceFrom, hclose]
            exact ⟨some place, .pure _ c, @ClosesAt.some _ place [] t ts rfl hclose⟩
          | succ depth =>
            obtain ⟨x, hx, hcloses⟩ := ih depth (place + 1)
            simp only [closingPlaceFrom, hclose]
            exact ⟨x, hx, hcloses.cons t⟩
        · obtain ⟨x, hx, hcloses⟩ := ih depth (place + 1)
          -- any other token is skipped by both
          have hwalk : (closingPlaceFrom (depth + 1) place (t :: ts) : Walk ε (Option Nat)) =
              closingPlaceFrom (depth + 1) (place + 1) ts := by
            cases hk : t.kind <;> simp_all [closingPlaceFrom, TokenKind.endsLine]
          simp only [hopen, hclose, hwalk]
          exact ⟨x, hx, hcloses.cons t⟩

/-- At an opening parenthesis, the walk looks at what the rule looks at. -/
theorem kindAfterClosing_ends (hc : c.Inside) (hrest : c.rest = t :: ts)
    (ht : t.kind = .leftParen) :
    (kindAfterClosing : Walk ε (Option TokenKind)).EndsIn c
      (.done ((Rule.afterClosing 1 c.moved.line).map Rule.peekKind) c) := by
  rw [Cursor.line, Cursor.rest_moved hrest]
  obtain ⟨x, hx, hcloses⟩ := closingPlaceFrom_ends (ε := ε) 0 (c.place + 1) ts c
  have hplace : (closingPlace : Walk ε (Option Nat)).EndsIn c (.done x c) := by
    refine (here_ends hc).bind ?_
    show (closingPlaceFrom 0 c.place c.rest).EndsIn c _
    simpa only [hrest, closingPlaceFrom, ht] using hx
  generalize Rule.afterClosing 1 (Tokens.firstLine ts) = after at hcloses ⊢
  cases hcloses with
  | none => exact hplace.bind (.pure none c)
  | @some us u vs split closing =>
    have hmore : Tokens.EndsOnce vs := by
      have hends := (hc.ends_cons hrest).tail (by simp [ht])
      rw [split] at hends
      exact hends.of_append (by simp [closing])
    obtain ⟨v, vs, rfl⟩ := List.exists_cons_of_ne_nil hmore.ne_nil
    have hnext : c.tokens[c.place + 1 + us.length + 1]? = some v := by
      have hdrop : c.tokens.drop (c.place + 1) = us ++ u :: v :: vs := by
        rw [← split, ← List.tail_drop]
        exact congrArg List.tail hrest
      rw [Nat.add_assoc, ← List.getElem?_drop, hdrop]
      simp
    rw [Option.map_some, Tokens.peekKind_firstLine]
    exact hplace.bind ((tokenAt_ends hc hnext).bind (.pure _ c))

end Walk

end LineBasic
