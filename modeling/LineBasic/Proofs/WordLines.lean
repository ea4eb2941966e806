import LineBasic.Proofs.SourceLines
import LineBasic.Proofs.Words

/-!
# Lines of words

What a line says depends on its words alone, and where they stand does not matter. So a text is as
good as the words of its lines, without the empty ones, whatever blanks and comments there are.

* `Words.line` : a line of words, as tokens in some place. `Rule.Takes` : a rule
  takes all words of a line.
* `Text.wordLines?` : the words of the lines of a text.
* `Words.Says` : what a line of words says. `Words.statementsOf?_eq` : a text says
  what its lines of words say.
* `Progress.Leads`, `Progress.Written` : statements, and lines of words, that lead from some
  progress to another, whatever the numbers of their lines are.
* `Reading.text_of_written` : reading a text with these lines of words.
-/

namespace LineBasic

/-! ### Words as tokens -/

/-- A token of a word, in some place. -/
def Word.token (w : Word) : Token := ⟨w.kind, w.text, 1, 0, w.value⟩

/-- The end of a line, in some place. -/
def Token.lineEnd : Token := ⟨.finish, "", 1, 0, .nothing⟩

/-- A line of words. -/
def Words.line (ws : List Word) : List Token := ws.map Word.token ++ [.lineEnd]

/-- A rule takes all words of a line. -/
def Rule.Takes {α : Type} (r : Rule α) (ws : List Word) (a : α) : Prop :=
  r (Words.line ws) = .ok (a, [.lineEnd])

/-! ### Lines of texts -/

namespace Text

/-- The words of a line, if it has no lexical fault. -/
def words? (l : List Char) : Option (List Word) :=
  match (scanFrom ⟨1, 0⟩ l).error with
  | some _ => none
  | none => some (((scanFrom ⟨1, 0⟩ l).tokens.filter fun t => !t.kind.endsLine).map Token.word)

/-- The words of the lines of a text that have any, if it has no lexical fault. -/
def wordLines? (s : String) : Option (List (List Word)) :=
  ((lines s.toList).mapM words?).map fun wss => wss.filter fun ws => !ws.isEmpty

theorem not_mem_of_mem_lines {cs l : List Char} (h : l ∈ lines cs) : '\n' ∉ l := by
  induction cs using line_induction with
  | last cs hcs =>
    rw [lines_of_not_mem hcs, List.mem_singleton] at h
    exact h ▸ hcs
  | more first rest hfirst ih =>
    rw [lines_append, lines_of_not_mem hfirst] at h
    rcases List.mem_append.1 h with h | h
    · exact List.mem_singleton.1 h ▸ hfirst
    · exact ih h

end Text

namespace Words

/-- What a line of words says. -/
def Says (ws : List Word) (s : Statement) : Prop := Tokens.statement? (line ws) = some (some s)

theorem says_of_takes {w : Word} {ws : List Word} {s : Statement} (hw : w.kind.endsLine = false)
    (h : Rule.statement.Takes (w :: ws) s) : Says (w :: ws) s := by
  have hread : Rule.statement (w.token :: line ws) = .ok (s, [.lineEnd]) := h
  show Tokens.statement? (w.token :: line ws) = _
  rw [Tokens.statement?, hread]
  exact if_neg (by rw [Word.token, hw]; decide)

theorem filter_alike {ts us : List Token} (h : Tokens.Alike ts us) :
    (ts.filter fun t => !t.kind.endsLine).map Token.word =
      (us.filter fun t => !t.kind.endsLine).map Token.word := by
  induction h with
  | nil => rfl
  | @cons t u ts us ht _ ih =>
    rw [List.filter_cons, List.filter_cons, ← ht.endsLine_eq]
    cases hline : t.kind.endsLine with
    | true => simpa using ih
    | false =>
      obtain ⟨hkind, hlexeme, hvalue⟩ := ht.same hline
      simpa [Token.word, hkind, hlexeme, hvalue] using ih

theorem alike_line (ts : List Token) {e : Token} (he : e.kind.endsLine = true) :
    Tokens.Alike (ts ++ [e]) (line (ts.map Token.word)) := by
  induction ts with
  | nil => exact .cons (.inl ⟨he, rfl⟩) .nil
  | cons t ts ih => exact .cons (.inr ⟨rfl, rfl, rfl⟩) ih

/-- What a line of a text says is what its words say. -/
theorem statementOf?_eq {l : List Char} {ws : List Word} (hl : '\n' ∉ l)
    (h : Text.words? l = some ws) :
    statementOf? l = Tokens.statement? (line ws) := by
  obtain ⟨ts, q, -, hts, hok, hend, -⟩ | ⟨hnone, herror⟩ := Reading.line_cases 1 l hl
  · obtain ⟨hw, ha⟩ := hend .lineEnd rfl
    simp only [Text.words?, hok, Option.some_inj] at h
    rw [← filter_alike ha] at h
    have hplain : ts.filter (fun t => !t.kind.endsLine) = ts :=
      List.filter_eq_self.2 fun t ht => by rw [(hts t ht).1]; rfl
    have hwords : ts.map Token.word = ws := by
      rw [← h, List.filter_append, hplain]
      simp [Token.lineEnd, TokenKind.endsLine]
    rw [statementOf?, hok, ← hwords]
    exact (Reading.statement?_alike hw ha).symm.trans
      (Reading.statement?_alike hw (alike_line ts rfl))
  · have hfault := herror [] Text.atLineEnd_nil
    rw [List.append_nil] at hfault
    simp only [Text.words?] at h
    split at h
    · cases h
    · next hnone => exact absurd hnone hfault

/-- The statements of a text are what its lines of words say, with nothing for the empty lines. -/
theorem statementsOf?_eq {s : String} {wss : List (List Word)} {sts : List Statement}
    (h : Text.wordLines? s = some wss) (hsaid : List.Forall₂ Says wss sts) :
    ∃ ss, statementsOf? s.toList = some ss ∧ ss.reduceOption = sts := by
  obtain ⟨all, hall, rfl⟩ := Option.map_eq_some_iff.1 h
  have hlines : ∀ l ∈ Text.lines s.toList, '\n' ∉ l := fun l => Text.not_mem_of_mem_lines
  rw [statementsOf?]
  clear h
  generalize Text.lines s.toList = ls at hall hlines
  induction ls generalizing all sts with
  | nil =>
    obtain rfl : [] = all := by simpa using hall
    cases hsaid
    exact ⟨[], rfl, rfl⟩
  | cons l ls ih =>
    simp only [List.mapM_cons, Option.pure_def, Option.bind_eq_bind,
      Option.bind_eq_some_iff] at hall
    obtain ⟨ws, hws, rest, hrest, heq⟩ := hall
    obtain rfl : ws :: rest = all := Option.some.inj heq
    have hl := statementOf?_eq (hlines l (.head _)) hws
    have hls : ∀ l ∈ ls, '\n' ∉ l := fun l hl => hlines l (.tail _ hl)
    cases ws with
    | nil =>
      obtain ⟨ss, hss, hsts⟩ := ih rest hsaid hrest hls
      refine ⟨none :: ss, ?_, hsts⟩
      rw [List.mapM_cons, hl, hss]
      rfl
    | cons w ws =>
      cases hsaid with
      | cons hfirst hmore =>
        obtain ⟨ss, hss, hsts⟩ := ih rest hmore hrest hls
        refine ⟨some _ :: ss, ?_, congrArg _ hsts⟩
        rw [List.mapM_cons, hl, hss, hfirst]
        rfl

end Words

/-! ### Statements on any lines -/

namespace Progress

variable {use : Uses} {p q : Progress} {d : Draft} {r : Draft × Option Node}

/-- Statements lead from some progress to another, whatever lines they are on. -/
def Leads (use : Uses) : List Statement → Progress → Progress → Prop
  | [], p, q => p = q
  | s :: sts, p, q => ∀ line, ∃ p', p.step use line (some s) = some p' ∧ Leads use sts p' q

theorem steps_of_leads {sts : List Statement} (h : Leads use sts p q) {ss : List (Option Statement)}
    (hss : ss.reduceOption = sts) (line : Nat) : steps use line ss p = some q := by
  induction ss generalizing sts p line with
  | nil =>
    subst hss
    exact congrArg some h
  | cons s ss ih =>
    cases s with
    | none => exact ih h hss (line + 1)
    | some s =>
      subst hss
      obtain ⟨p', hstep, hmore⟩ := h line
      rw [steps, hstep]
      exact ih hmore rfl (line + 1)

/-- A statement that can be placed. -/
theorem step_of_place {s : Statement} {line : Nat} (huse : ∀ name, s ≠ .use name)
    (h : p.draft.place line s = .ok r) : p.step use line (some s) = some (p.advance r) := by
  unfold step
  split
  · next heq => cases heq
  · next name heq => exact absurd (Option.some.inj heq) (huse name)
  · next heq =>
    obtain rfl := Option.some.inj heq
    rw [h]

/-- Lines of words lead from some progress to another. -/
def Written (use : Uses) (wss : List (List Word)) (p q : Progress) : Prop :=
  ∃ sts, List.Forall₂ Words.Says wss sts ∧ Leads use sts p q

theorem written_of_place {w : Word} {ws : List Word} {s : Statement} (hw : w.kind.endsLine = false)
    (hs : Rule.statement.Takes (w :: ws) s) (huse : ∀ name, s ≠ .use name)
    (h : ∀ line, p.draft.place line s = .ok r) : Written use [w :: ws] p (p.advance r) :=
  ⟨[s], .cons (Words.says_of_takes hw hs) .nil, fun line => ⟨_, step_of_place huse (h line), rfl⟩⟩

end Progress

/-- Reading a text places what its lines of words say, wherever the text stands. -/
theorem Reading.text_of_written {use : Includer} {p q : Progress} {wss : List (List Word)}
    {s : String} (h : Progress.Written (.ofIncluder use) wss p q)
    (hs : Text.wordLines? s = some wss) (line : Nat) :
    text use line s p = (q, none) := by
  obtain ⟨sts, hsaid, hleads⟩ := h
  obtain ⟨ss, hss, hsts⟩ := Words.statementsOf?_eq hs hsaid
  have hresult : (text use line s p).result = some q := by
    rw [text_result, hss, Option.bind_some, Progress.steps_of_leads hleads hsts]
  cases hread : text use line s p with
  | mk p' fault =>
    rw [hread] at hresult
    cases fault with
    | none => exact congrArg (·, none) (Option.some.inj hresult)
    | some e => cases hresult

end LineBasic
