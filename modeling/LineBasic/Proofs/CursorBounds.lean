import LineBasic.Proofs.WalkedLines

/-!
# The cursor stays among its tokens

A turn of the loop over statements passes a line, so that the loop ends; a module is read with
tokens of its own, and the cursor comes back after it.

* `Walk.turn_reads`, `Walk.statements_read` : lines and the loop over them.
* `Walk.text_reads`, `Walk.useModule_includes` : texts and modules.
* `Reader.cursor_stays_inside` : a walk over any source text, with any modules.
-/

namespace LineBasic

/-! ### Texts -/

/-- A turn that goes past a line passes a token at least. -/
theorem Cursor.PastLine.length_rest_lt {c c' : Cursor} {t : Token} {ts : List Token}
    (h : c.PastLine c') (hc : c.Inside) (hrest : c.rest = t :: ts) (ht : t.kind ≠ .finish) :
    c'.rest.length < c.rest.length := by
  rcases h.rest with hafter | ⟨-, e, hend, -⟩
  · have hlength := Tokens.length_firstLine c.rest
    have hline : (Tokens.firstLine c.rest).length ≠ 0 := by
      rw [hrest, Tokens.firstLine]
      split <;> simp
    rw [hafter]
    omega
  · have hmore := List.length_pos_iff.2 ((hc.ends_cons hrest).tail ht).ne_nil
    simp only [hend, hrest, List.length_cons, List.length_nil]
    omega

theorem Cursor.PastLine.place_lt {c c' : Cursor} (h : c.PastLine c')
    (hlt : c'.rest.length < c.rest.length) :
    c.place < c'.place := by
  rw [Cursor.length_rest, Cursor.length_rest, h.tokens] at hlt
  omega

/-- What is left after a line is read as the lines after it. -/
theorem Cursor.PastLine.lines_eq {c c' : Cursor} (h : c.PastLine c') (includer : Includer)
    (p : Progress) :
    Reading.lines includer (splitLines c'.rest) p =
      Reading.lines includer (splitLines (Tokens.afterLine c.rest)) p := by
  rcases h.rest with hafter | ⟨hafter, e, hend, hfinish⟩
  · rw [hafter]
  · have hends : e.kind.endsLine = true := by rw [hfinish]; rfl
    have hlines :=
      Reading.lines_of_endsLine includer (show (Rule.peekKind [e]).endsLine = true from hends) p
    rw [hend, hlines, hafter, Tokens.afterLine, if_pos hends]

/-- How a walk ends that reads what a reader reads. -/
def Reading.ending (x : Reading) (c : Cursor) : Ending (Progress × Error) Progress :=
  match x with
  | (q, none) => .done q c
  | (q, some e) => .fault (q, e)

namespace Walk

variable {c c' : Cursor} {t : Token} {ts : List Token} {use : Uses} {includer : Includer}

/-- From any place in a text, uses are read as by an includer, and the cursor comes back. -/
def Includes (use : Uses) (includer : Includer) : Prop :=
  ∀ name line p c, c.Inside → (use name line p).EndsIn c (Reading.ending (includer name line p) c)

theorem begin_ends {ε : Type} (hc : c.Inside) : (begin : Walk ε Unit).EndsIn c (.done () c.begun) :=
  .of_apply rfl (sound_at (c := c.begun) ⟨hc.ends, hc.bound⟩)

/-- A statement is read and placed as on a line, and the line is passed. -/
theorem placed_reads (h : Includes use includer) (p : Progress) (hc : c.Inside)
    (hrest : c.rest = t :: ts) (ht : t.kind.endsLine = false) :
    ∃ c', (placed use p).EndsIn c (Reading.ending (Reading.line includer c.line p) c') ∧
      ((Reading.line includer c.line p).2 = none → c.PastLine c') := by
  -- the statement starts at the cursor, which is not at the end of the text
  have hwithin : c.begun.Within :=
    ⟨⟨hc.ends, hc.bound⟩, Nat.le_refl _, t, Cursor.getElem?_place hrest,
      TokenKind.ne_finish_of_endsLine ht⟩
  have hstatement := statement_matches hwithin rfl hrest ht
  have hstart {x : Ending (Progress × Error) Progress} {f : Token → TextWalk}
      (hf : (f t).EndsIn c.begun x) :
      (do begin; let t ← peek; f t : TextWalk).EndsIn c x :=
    (begin_ends hc).bind ((peek_ends hwithin.inside hrest).bind hf)
  change Matches .whole statement c.begun (Rule.statement c.line) at hstatement
  rw [Cursor.line_cons hrest ht] at hstatement ⊢
  simp only [Reading.line, ht]
  generalize Rule.statement (t :: c.moved.line) = result at hstatement ⊢
  cases hstatement with
  | error ends =>
    exact ⟨c, hstart ((ends.mapFault_fault _).bind_fault _), fun hnone => by cases hnone⟩
  | @ok s c' left ends reached =>
    have hpast : c.PastLine c' := Cursor.PastLine.of_sameLine reached rfl rfl
    have hends := ends.mapFault_done fun f => (p, Error.grammatical t.line f)
    cases s
    case use name =>
      exact ⟨c', hstart (hends.bind (h name t.line p c' hpast.inside)), fun _ => hpast⟩
    all_goals
      refine ⟨c', hstart (hends.bind ?_), fun _ => hpast⟩
      simp only
      generalize p.draft.place t.line _ = placed
      cases placed with
      | error f => exact .fault _ c'
      | ok r => exact .pure _ c'

/-- A turn of the loop reads a line. -/
theorem turn_reads (h : Includes use includer) (p : Progress) (hc : c.Inside)
    (hrest : c.rest = t :: ts) (ht : t.kind ≠ .finish) :
    ∃ c', (turn use p).EndsIn c (Reading.ending (Reading.line includer c.line p) c') ∧
      ((Reading.line includer c.line p).2 = none → c.PastLine c') := by
  by_cases hk : t.kind = .newline
  · have hends : t.kind.endsLine = true := by rw [hk]; rfl
    have hline : Reading.line includer c.line p = (p, none) := by
      rw [Cursor.line_of_endsLine hrest hends]
      simp only [Reading.line, hends, if_true]
    rw [hline]
    refine ⟨c.moved, (matchOne_of_eq hc hrest (by decide) hk).bind (.pure p _), fun _ => ?_⟩
    refine ⟨hc.moved hrest ht, rfl, .inl ?_⟩
    rw [Cursor.rest_moved hrest, hrest, Tokens.afterLine, if_pos hends]
  · have hends : t.kind.endsLine = false := by
      by_contra hline
      exact (TokenKind.eq_of_endsLine (by simpa using hline)).elim hk ht
    obtain ⟨c', hplaced, hpast⟩ := placed_reads h p hc hrest hends
    exact ⟨c', (matchOne_of_ne hc hrest (by decide) hk).bind hplaced, hpast⟩

theorem EndsIn.noted {w : TextWalk} {q : Progress} (hw : w.EndsIn c (.done q c'))
    (hturn : (Note.turn c c').Sound) :
    (Walk.noted w).EndsIn c (.done q c') := by
  have happly : Walk.noted w c = ⟨(w c).notes ++ [.turn c c'], .done q c'⟩ := by
    simp only [Walk.noted, hw.ending]
  refine .of_apply happly fun n hn => ?_
  rcases List.mem_append.1 hn with hn | hn
  · exact hw.sound n hn
  · cases List.mem_singleton.1 hn
    exact hturn

theorem EndsIn.noted_fault {w : TextWalk} {e : Progress × Error} (hw : w.EndsIn c (.fault e)) :
    (Walk.noted w).EndsIn c (.fault e) := by
  have happly : Walk.noted w c = w c := by simp only [Walk.noted, hw.ending]
  exact ⟨happly ▸ hw.sound, happly ▸ hw.ending⟩

/-- The loop over statements reads the lines that are left. It ends, because
every turn passes a token. -/
theorem statements_read (h : Includes use includer) {turns : Nat} (p : Progress) (hc : c.Inside)
    (hturns : c.rest.length ≤ turns) :
    ∃ c', (statements use turns p).EndsIn c
      (Reading.ending (Reading.lines includer (splitLines c.rest) p) c') := by
  induction turns generalizing c p with
  | zero => exact absurd (List.length_eq_zero_iff.1 (Nat.le_zero.1 hturns)) hc.rest_ends.ne_nil
  | succ turns ih =>
    obtain ⟨t, ts, hrest⟩ := hc.exists_next
    have hend := isAtEnd_ends (ε := Progress × Error) hc hrest
    by_cases ht : t.kind = .finish
    · have hends : t.kind.endsLine = true := by rw [ht]; rfl
      obtain rfl := (hc.ends_cons hrest).eq_nil ht
      have hlines :=
        Reading.lines_of_endsLine includer (show (Rule.peekKind [t]).endsLine = true from hends) p
      rw [hrest, hlines, Tokens.afterLine, if_pos hends]
      refine ⟨c, hend.bind ?_⟩
      simp only [ht, decide_true, if_true]
      exact .pure p c
    · obtain ⟨⟨q, e?⟩, hline⟩ : ∃ read, Reading.line includer c.line p = read := ⟨_, rfl⟩
      obtain ⟨c', hturn, hpast⟩ := turn_reads h p hc hrest ht
      rw [hline] at hturn hpast
      have hsplit : splitLines c.rest = c.line :: splitLines (Tokens.afterLine c.rest) := by
        rw [Cursor.line, hrest, Tokens.splitLines_cons]
      simp only [hsplit, Reading.lines, hline]
      cases e? with
      | none =>
        -- the turn has passed a token, so that one turn less is enough for what is left
        have hpast := hpast rfl
        have hlt := hpast.length_rest_lt hc hrest ht
        have hsound : (Note.turn c c').Sound := ⟨hc, hpast.inside, hpast.tokens, hpast.place_lt hlt⟩
        obtain ⟨c'', hmore⟩ := ih q hpast.inside (Nat.le_of_lt_succ (Nat.lt_of_lt_of_le hlt hturns))
        rw [hpast.lines_eq] at hmore
        refine ⟨c'', hend.bind ?_⟩
        simp only [ht, decide_false]
        exact (EndsIn.noted hturn hsound).bind hmore
      | some e =>
        refine ⟨c', hend.bind ?_⟩
        simp only [ht, decide_false]
        exact (EndsIn.noted_fault hturn).bind_fault _

/-- A text is read with tokens of its own, from their first one on, and the cursor comes back. -/
theorem text_reads (h : Includes use includer) (first : Nat) (source : String) (p : Progress)
    (c : Cursor) :
    (text use first source p).EndsIn c
      (Reading.ending (Reading.text includer first source p) c) := by
  cases hscan : (scan first source).error with
  | some e =>
    simp only [Reading.text, hscan]
    have happly : text use first source p c = ⟨[], .fault (p, .lexical e)⟩ := by
      simp only [text, hscan]
    exact .of_apply happly fun _ hn => absurd hn List.not_mem_nil
  | none =>
    have hinside : Cursor.Inside ⟨(scan first source).tokens, 0, 0⟩ :=
      ⟨Tokens.endsOnce_scan hscan, Nat.zero_le _⟩
    obtain ⟨c', hends⟩ := statements_read h p hinside (Nat.le_refl _)
    change EndsIn (statements use (scan first source).tokens.length p) _
      (Reading.ending
        (Reading.lines includer (splitLines (scan first source).tokens) p) c') at hends
    refine .of_apply ?_ hends.sound
    simp only [text, Reading.text, hscan, hends.ending]
    obtain ⟨q, _ | e⟩ := Reading.lines includer (splitLines (scan first source).tokens) p <;> rfl

/-! ### Modules -/

theorem EndsIn.returning {w : TextWalk} {x : Ending (Progress × Error) Progress} (hc : c.Inside)
    (hw : w.EndsIn c x) :
    (Walk.returning w).EndsIn c x :=
  ⟨fun n hn => (List.mem_append.1 hn).elim (hw.sound n) (sound_at hc n), hw.ending⟩

theorem useModule_includes (catalog : Catalog) (depth : Nat) (within : List String) :
    Includes (useModule catalog depth within) (Reading.includeModule catalog depth within) := by
  induction depth generalizing within with
  | zero => exact fun name line p c _ => .fault _ c
  | succ depth ih =>
    intro name line p c hc
    simp only [useModule, Reading.includeModule]
    split
    · exact .fault _ c
    · obtain _ | (fault | (⟨path, source⟩ | path)) := catalog.lookup name
      · cases Bundle.ofName? name with
        | none => exact .fault _ c
        | some library => exact .pure _ c
      · exact .fault _ c
      · exact .returning hc (text_reads (ih (name :: within)) 1 source p c)
      · cases Bundle.ofName? name <;> exact .pure _ c

end Walk

/-- A walk over any source text, with any modules, ends, and does not crash: it looks at no token
that is not there, at none before the first one, and at one after a closing parenthesis only where
there is one. It reads what a reader reads. Whenever the cursor is used or moved, in the text, in a
module or after one, the tokens end once and the cursor is not past their end. Every step back is to
the first token of the statement, and every turn of the loop over statements that does not fail
passes a token at least. -/
theorem Reader.cursor_stays_inside (catalog : Catalog) (source : String) (r : Reader) :
    (∀ n ∈ (Walk.parse catalog source r).notes, n.Sound) ∧
      (Walk.parse catalog source r).ending = .done (r.parse catalog source) ⟨[], 0, 0⟩ := by
  have htext :=
    Walk.text_reads (Walk.useModule_includes catalog (catalog.length + 1) []) r.line source
      ⟨r.draft, #[]⟩
    ⟨[], 0, 0⟩
  obtain ⟨⟨q, e?⟩, hread⟩ : ∃ read, Reading.piece catalog r.line source r.draft = read := ⟨_, rfl⟩
  have hending := htext.ending
  change _ = Reading.ending (Reading.piece catalog r.line source r.draft) _ at hending
  rw [hread] at hending
  have hsound := htext.sound
  simp only [Walk.parse, Reader.parse, hread]
  cases e?
  all_goals
    simp only [Reading.ending] at hending
    simp only [hending, and_true]
    exact hsound

-- a step back in the module, its only turn, and the turn with the use
example :
    let notes :=
      (Walk.parse [("PART", .ok (.source "part.bas" "X + 1"))] "USE Part" Reader.start).notes
    notes.countP (fun n => n matches .back _) = 1 ∧
      notes.countP (fun n => n matches .turn _ _) = 2 := by
  decide +kernel

end LineBasic
