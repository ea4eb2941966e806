import LineBasic.Proofs.Lexemes

/-!
# Texts cut into tokens

A text is cut into lexemes and the gaps between them. Each character belongs to one of them, up to
the end of the text or to the place of a fault, and each lexeme is as long as it can be, so that
there is just one way to do it. The scanner finds that way.

* `Position.atEnd` : the place after a text.
* `Cut` : a text cut into tokens, up to some place of it.
* `Cut.scanFrom_eq` : the scanner goes along every cut.
* `exists_cut`, `Cut.unique` : a text can be cut up to its end or to the place of a
  fault, and in one way only.
* `scanning_is_lossless` : what the tokens of a text are.
* `rescanning_is_identity` : the lexemes of a text, with spaces between them,
  give the same tokens again.
-/

namespace LineBasic

/-! ### Places -/

/-- The place at the end of a text that starts on a line: its newlines are counted, and the
characters since the last of them. -/
def Position.atEnd (line : Nat) (cs : List Char) : Position :=
  ⟨line + cs.count '\n', (cs.reverse.takeWhile (· ≠ '\n')).length⟩

/-- The place of a token. -/
def Token.place (t : Token) : Position := ⟨t.line, t.column⟩

/-- The place of a fault. -/
def LexError.place (e : LexError) : Position := ⟨e.line, e.column⟩

/-- The token for the end of a text. -/
def Token.finishAt (p : Position) : Token := ⟨.finish, "", p.line, p.column, .nothing⟩

namespace Position

variable {line : Nat} {cs l : List Char}

theorem atEnd_newline : atEnd line (cs ++ ['\n']) = ⟨(atEnd line cs).line + 1, 0⟩ := by
  simp [atEnd, List.count_append, Nat.add_assoc]

/-- Text without a newline stays on the line. -/
theorem atEnd_append (h : '\n' ∉ l) :
    atEnd line (cs ++ l) = ⟨(atEnd line cs).line, (atEnd line cs).column + l.length⟩ := by
  have hall : ∀ c ∈ l.reverse, (decide (c ≠ '\n')) = true := by
    intro c hc
    have hmem : c ∈ l := List.mem_reverse.1 hc
    exact decide_eq_true fun heq => h (heq ▸ hmem)
  have htake :
      ((cs ++ l).reverse.takeWhile (· ≠ '\n')) = l.reverse ++ cs.reverse.takeWhile (· ≠ '\n') := by
    rw [List.reverse_append, List.takeWhile_append_of_pos hall]
  have hcount : l.count '\n' = 0 := List.count_eq_zero.2 h
  simp only [atEnd, htake, List.count_append, hcount, List.length_append,
    List.length_reverse, Nat.add_zero]
  congr 1
  omega

theorem atEnd_lexeme {kind : TokenKind} {value : Literal} (h : Lexeme kind l value) :
    atEnd line (cs ++ l) = (atEnd line cs).after kind l.length := by
  by_cases hkind : kind = .newline
  · subst hkind
    rw [h.newline_eq, atEnd_newline]
    rfl
  · rw [atEnd_append (h.newline_not_mem hkind), after, if_neg hkind]

/-- No two places of a text are the same. -/
theorem eq_of_atEnd_eq {cs' rest rest' : List Char} (htext : cs ++ rest = cs' ++ rest')
    (h : atEnd line cs = atEnd line cs') : cs = cs' := by
  have hnil {before more : List Char} (h : atEnd line (before ++ more) = atEnd line before) :
      more = [] := by
    by_cases hnewline : '\n' ∈ more
    · have hpos : 0 < more.count '\n' := List.count_pos_iff.2 hnewline
      have hline : line + (before ++ more).count '\n' = line + before.count '\n' :=
        congrArg Position.line h
      rw [List.count_append] at hline
      omega
    · rw [atEnd_append hnewline] at h
      have hcolumn : (atEnd line before).column + more.length = (atEnd line before).column :=
        congrArg Position.column h
      exact List.eq_nil_of_length_eq_zero (by omega)
  obtain ⟨more, rfl, -⟩ | ⟨more, rfl, -⟩ := List.append_eq_append_iff.1 htext
  · rw [hnil h.symm, List.append_nil]
  · rw [hnil h, List.append_nil]

end Position

/-! ### Gaps -/

namespace Gap

variable {gap gap' rest : List Char}

theorem newline_not_mem (h : Gap gap rest) : '\n' ∉ gap := by
  induction h with
  | none => simp
  | space blank _ ih =>
    rintro (_ | ⟨_, hmem⟩)
    · cases blank
    · exact ih hmem
  | comment inLine =>
    rintro (_ | ⟨_, hmem⟩)
    exact inLine hmem

/-- After a comment, there is nothing left of a gap. -/
theorem eq_nil_of_atLineEnd (h : Gap gap rest)
    (ends : Text.AtLineEnd (gap ++ rest)) : gap = [] := by
  cases gap with
  | nil => rfl
  | cons c gap =>
    obtain rfl : c = '\n' := ends c rfl
    exact absurd (.head _) h.newline_not_mem

theorem append (h : Gap gap (gap' ++ rest)) (h' : Gap gap' rest) : Gap (gap ++ gap') rest := by
  generalize hafter : gap' ++ rest = after at h
  induction h with
  | none => exact h'
  | space blank _ ih => exact .space blank (ih hafter)
  | comment inLine ends =>
    subst hafter
    obtain rfl := h'.eq_nil_of_atLineEnd ends
    rw [List.append_nil]
    exact .comment inLine ends

/-- The scanner passes a gap. -/
theorem scanFrom_eq (h : Gap gap rest) (line : Nat) (before : List Char) :
    scanFrom (.atEnd line before) (gap ++ rest) = scanFrom (.atEnd line (before ++ gap)) rest := by
  induction h generalizing before with
  | none => rw [List.append_nil, List.nil_append]
  | @space c gap rest blank more ih =>
    have hpiece : piece c (gap ++ rest) = .blank 0 := by
      simp only [Text.isSpace, Bool.or_eq_true, decide_eq_true_eq] at blank
      rcases blank with (rfl | rfl) | rfl <;> rfl
    have hnewline : '\n' ∉ [c] := fun hmem => by
      rw [← List.mem_singleton.1 hmem] at blank
      cases blank
    rw [List.cons_append, scanFrom_cons, hpiece, List.append_cons, ← ih,
      Position.atEnd_append hnewline]
    rfl
  | @comment body rest inLine ends =>
    have htake : (body ++ rest).takeWhile (fun d => d ≠ '\n') = body := by
      refine takeWhile_append_of_all (fun d hd => ?_) fun d hd => ?_
      · exact decide_eq_true fun heq => inLine (heq ▸ hd)
      · simp [ends d hd]
    have hpiece : piece Piece.commentMark (body ++ rest) = .blank body.length := by
      conv_rhs => rw [← htake]
      rfl
    have hnewline : '\n' ∉ Piece.commentMark :: body := (Gap.comment inLine ends).newline_not_mem
    rw [List.cons_append, scanFrom_cons, hpiece, Position.atEnd_append hnewline]
    simp only [List.drop_left, List.length_cons, Nat.add_assoc]

end Gap

/-! ### Cuts -/

/-- The text after `before` is cut into tokens, up to `rest`. In front of each token and after the
last one there is a gap; each token shows its lexeme, stands at its place, and would not go on
with what comes after it. -/
inductive Cut (line : Nat) : List Char → List Token → List Char → List Char → Prop
  | stop {before gap rest : List Char} (blank : Gap gap rest) :
      Cut line before [] (gap ++ rest) rest
  | token {before gap slice cs rest : List Char} {t : Token} {ts : List Token}
      (blank : Gap gap (slice ++ cs)) (lexeme : Lexeme t.kind slice t.value)
      (shown : t.lexeme = lexemeOf t.kind slice) (place : t.place = .atEnd line (before ++ gap))
      (ends : t.kind.EndsBefore cs) (next : Cut line (before ++ gap ++ slice) ts cs rest) :
      Cut line before (t :: ts) (gap ++ (slice ++ cs)) rest

/-- The token shows the part of a text that starts at its place. -/
def Token.IsSliceOf (line : Nat) (cs : List Char) (t : Token) : Prop :=
  ∃ before slice after, cs = before ++ slice ++ after ∧ Lexeme t.kind slice t.value ∧
    t.lexeme = lexemeOf t.kind slice ∧ t.place = .atEnd line before

/-- Scanning stops at the end of a text, and at the place of a fault. -/
def Text.Stops (rest : List Char) : Prop := rest = [] ∨ ∃ f : LexFault, f.StandsAt rest

namespace Cut

variable {line : Nat} {before cs rest : List Char} {ts : List Token}

/-- One more gap in front. -/
theorem blank {gap : List Char} (hgap : Gap gap cs) (h : Cut line (before ++ gap) ts cs rest) :
    Cut line before ts (gap ++ cs) rest := by
  cases h with
  | stop blank =>
    rw [← List.append_assoc]
    exact .stop (hgap.append blank)
  | token blank lexeme shown place ends next =>
    rw [← List.append_assoc]
    refine .token (hgap.append blank) lexeme shown ?_ ends ?_
    · rw [place, List.append_assoc]
    · rwa [← List.append_assoc]

/-- The scanner goes along a cut. -/
theorem scanFrom_eq (h : Cut line before ts cs rest) : ∃ read, cs = read ++ rest ∧
    scanFrom (.atEnd line before) cs =
      (scanFrom (.atEnd line (before ++ read)) rest).prepend ts := by
  induction h with
  | @stop before gap rest blank => exact ⟨gap, rfl, blank.scanFrom_eq line before⟩
  | @token before gap slice cs rest t ts blank lexeme shown place ends next ih =>
    obtain ⟨read, rfl, hscan⟩ := ih
    refine ⟨gap ++ (slice ++ read), by simp, ?_⟩
    obtain ⟨c, chars, rfl, hpiece⟩ := lexeme.piece_eq ends
    have hplace : (Position.atEnd line (before ++ gap)).after t.kind (chars.length + 1) =
        .atEnd line (before ++ gap ++ c :: chars) := (Position.atEnd_lexeme lexeme).symm
    have htoken :
        (⟨t.kind, lexemeOf t.kind (c :: chars), (Position.atEnd line (before ++ gap)).line,
        (Position.atEnd line (before ++ gap)).column, t.value⟩ : Token) = t := by
      rw [← shown, ← place]
      rfl
    calc scanFrom (.atEnd line before) (gap ++ (c :: chars ++ (read ++ rest)))
        = scanFrom (.atEnd line (before ++ gap)) (c :: (chars ++ (read ++ rest))) :=
          blank.scanFrom_eq line before
      _ = (scanFrom (.atEnd line (before ++ gap ++ c :: chars)) (read ++ rest)).cons t := by
        rw [scanFrom_cons, hpiece]
        simp only [List.take_left, List.drop_left, hplace, htoken]
      _ = (scanFrom (.atEnd line (before ++ (gap ++ (c :: chars ++ read)))) rest).prepend
        (t :: ts) := by
        rw [hscan]
        simp only [List.append_assoc]
        rfl

/-- The scan of a text that is cut to its end. -/
theorem scanFrom_of_end (h : Cut line before ts cs []) : scanFrom (.atEnd line before) cs =
    ⟨ts ++ [.finishAt (.atEnd line (before ++ cs))],
      (Position.atEnd line (before ++ cs)).line, none⟩ := by
  obtain ⟨read, hread, hscan⟩ := h.scanFrom_eq
  rw [List.append_nil] at hread
  subst hread
  rw [hscan, scanFrom_nil]
  rfl

/-- The scan of a text that is cut to the place of a fault. -/
theorem scanFrom_of_fault (h : Cut line before ts cs rest) {f : LexFault}
    (stands : f.StandsAt rest) :
    ∃ read, cs = read ++ rest ∧ scanFrom (.atEnd line before) cs =
      ⟨ts, (Position.atEnd line (before ++ read)).line,
        some ⟨f, (Position.atEnd line (before ++ read)).line,
          (Position.atEnd line (before ++ read)).column⟩⟩ := by
  obtain ⟨read, hread, hscan⟩ := h.scanFrom_eq
  refine ⟨read, hread, ?_⟩
  cases rest with
  | nil => exact (stands.ne_nil rfl).elim
  | cons c rest =>
    rw [hscan, scanFrom_cons, stands.piece_eq]
    simp only [Scan.prepend, List.append_nil]

/-- Each token stands for a slice of the text. -/
theorem exists_slice (h : Cut line before ts cs rest) {t : Token} (ht : t ∈ ts) :
    t.IsSliceOf line (before ++ cs) := by
  induction h with
  | stop => cases ht
  | @token before gap slice cs rest u ts blank lexeme shown place ends next ih =>
    rcases List.mem_cons.1 ht with rfl | ht
    · exact ⟨before ++ gap, slice, cs, by simp only [List.append_assoc], lexeme, shown, place⟩
    · simpa only [List.append_assoc] using ih ht

theorem length_le (h : Cut line before ts cs rest) : ts.length ≤ cs.length := by
  induction h with
  | stop => exact Nat.zero_le _
  | token blank lexeme shown place ends next ih =>
    obtain ⟨c, chars, rfl, -⟩ := lexeme.piece_eq ends
    simp only [List.length_append, List.length_cons]
    omega

/-- There is one way to cut a text, and one place to stop at. -/
theorem unique {ts' : List Token} {rest' : List Char} (h : Cut line before ts cs rest)
    (h' : Cut line before ts' cs rest') (stops : Text.Stops rest) (stops' : Text.Stops rest') :
    ts' = ts ∧ rest' = rest := by
  obtain rfl | ⟨f, stands⟩ := stops
  · obtain rfl | ⟨f', stands'⟩ := stops'
    · have hscans := h'.scanFrom_of_end.symm.trans h.scanFrom_of_end
      exact ⟨(List.append_inj' (congrArg Scan.tokens hscans) rfl).1, rfl⟩
    · obtain ⟨read', -, hscan'⟩ := h'.scanFrom_of_fault stands'
      have herror := congrArg Scan.error (hscan'.symm.trans h.scanFrom_of_end)
      cases herror
  · obtain ⟨read, hread, hscan⟩ := h.scanFrom_of_fault stands
    obtain rfl | ⟨f', stands'⟩ := stops'
    · have herror := congrArg Scan.error (hscan.symm.trans h'.scanFrom_of_end)
      cases herror
    · obtain ⟨read', hread', hscan'⟩ := h'.scanFrom_of_fault stands'
      have hscans := hscan'.symm.trans hscan
      have herror := Option.some.inj (congrArg Scan.error hscans)
      have hplace : Position.atEnd line (before ++ read') = .atEnd line (before ++ read) :=
        congrArg LexError.place herror
      have htext : before ++ read' ++ rest' = before ++ read ++ rest := by
        rw [List.append_assoc, List.append_assoc, ← hread, ← hread']
      have hreads := Position.eq_of_atEnd_eq htext hplace
      rw [hreads] at htext
      exact ⟨congrArg Scan.tokens hscans, List.append_cancel_left htext⟩

end Cut

/-- A text can be cut up to a place where scanning stops. -/
theorem exists_cut (line : Nat) (before cs : List Char) :
    ∃ ts rest, Cut line before ts cs rest ∧ Text.Stops rest := by
  match cs with
  | [] => exact ⟨[], [], .stop (.none []), .inl rfl⟩
  | c :: rest =>
    have hsplit (n : Nat) : c :: rest = (c :: rest.take n) ++ rest.drop n := by
      rw [List.cons_append, List.take_append_drop]
    have hfound := piece_describes c rest
    generalize piece c rest = p at hfound
    cases hfound with
    | @blank n gap =>
      obtain ⟨ts, left, hcut, hend⟩ := exists_cut line (before ++ c :: rest.take n) (rest.drop n)
      refine ⟨ts, left, ?_, hend⟩
      rw [hsplit n]
      exact hcut.blank gap
    | @token kind n value lexeme ends =>
      obtain ⟨ts, left, hcut, hend⟩ :=
        exists_cut line (before ++ [] ++ c :: rest.take n) (rest.drop n)
      let place := Position.atEnd line (before ++ [])
      refine ⟨⟨kind, lexemeOf kind (c :: rest.take n), place.line, place.column, value⟩ :: ts,
        left, ?_, hend⟩
      rw [hsplit n]
      exact .token (.none _) lexeme rfl rfl ends hcut
    | fault stands => exact ⟨[], c :: rest, .stop (.none _), .inr ⟨_, stands⟩⟩
termination_by cs.length
decreasing_by all_goals (simp only [List.length_drop, List.length_cons]; omega)

/-- A text is cut into its tokens and the gaps between them, in one way only, to its end or to the
place of the fault that is reported. Each token shows the part of the text that starts at its
place. The last token stands for the end of the text, if it is reached. An illegal character is one
that no token starts with. -/
theorem scanning_is_lossless (line : Nat) (source : String) :
    ∃ ts read rest, source.toList = read ++ rest ∧ Cut line [] ts source.toList rest ∧
      (∀ ts' rest', Cut line [] ts' source.toList rest' → Text.Stops rest' → ts' = ts ∧
        rest' = rest) ∧
      (∀ t ∈ ts, t.kind ≠ .finish ∧ t.IsSliceOf line source.toList) ∧
      ts.length ≤ source.toList.length ∧
      match (scan line source).error with
      | none =>
        rest = [] ∧ (scan line source).tokens = ts ++ [.finishAt (.atEnd line source.toList)]
      | some e =>
        (scan line source).tokens = ts ∧ e.place = .atEnd line read ∧ e.fault.StandsAt rest ∧
        ∀ c, e.fault = .illegalCharacter c → rest.head? = some c ∧ Foreign c := by
  obtain ⟨ts, rest, hcut, hstops⟩ := exists_cut line [] source.toList
  have hunique : ∀ ts' rest', Cut line [] ts' source.toList rest' → Text.Stops rest' → ts' = ts ∧
      rest' = rest :=
    fun ts' rest' hcut' hstops' => hcut.unique hcut' hstops hstops'
  have hslices : ∀ t ∈ ts, t.kind ≠ .finish ∧ t.IsSliceOf line source.toList := fun t ht => by
    obtain ⟨before, slice, after, htext, lexeme, shown, place⟩ := hcut.exists_slice ht
    exact ⟨lexeme.kind_ne_finish, before, slice, after, htext, lexeme, shown, place⟩
  obtain rfl | ⟨f, stands⟩ := hstops
  · have hscan : scan line source = _ := hcut.scanFrom_of_end
    refine ⟨ts, source.toList, [], by rw [List.append_nil], hcut, hunique, hslices,
      hcut.length_le, ?_⟩
    rw [hscan]
    exact ⟨rfl, rfl⟩
  · obtain ⟨read, hread, hscan⟩ := hcut.scanFrom_of_fault stands
    change scan line source = _ at hscan
    refine ⟨ts, read, rest, hread, hcut, hunique, hslices, hcut.length_le, ?_⟩
    rw [hscan]
    refine ⟨rfl, rfl, stands, ?_⟩
    rintro c rfl
    cases stands with
    | illegalCharacter foreign => exact ⟨rfl, foreign⟩

/-! ### Printed again -/

/-- The lexemes of tokens, with a space after each of them. -/
def Tokens.spaced (ts : List Token) : List Char := ts.flatMap fun t => t.lexeme.toList ++ [' ']

theorem Tokens.spaced_cons (t : Token) (ts : List Token) :
    spaced (t :: ts) = t.lexeme.toList ++ ([' '] ++ spaced ts) := List.append_assoc _ _ _

/-- Lexemes with spaces between them are cut into the same tokens, on the same lines. -/
theorem Cut.respaced {line : Nat} {before before' cs rest : List Char} {ts : List Token}
    (h : Cut line before ts cs rest) (newlines : before'.count '\n' = before.count '\n') :
    (∃ ts', Cut line before' ts' (Tokens.spaced ts) [] ∧ ts'.map Token.word = ts.map Token.word ∧
      ts'.map Token.line = ts.map Token.line) ∧
        (Tokens.spaced ts).count '\n' + rest.count '\n' = cs.count '\n' := by
  induction h generalizing before' with
  | @stop before gap rest blank =>
    refine ⟨⟨[], .stop (.none []), rfl, rfl⟩, ?_⟩
    rw [List.count_append, List.count_eq_zero.2 blank.newline_not_mem]
    rfl
  | @token before gap slice cs rest t ts blank lexeme shown place ends next ih =>
    have hgap : gap.count '\n' = 0 := List.count_eq_zero.2 blank.newline_not_mem
    have hslice : t.lexeme.toList.count '\n' = slice.count '\n' := by rw [shown, lexeme.count_shown]
    have hspace : [' '].count '\n' = 0 := rfl
    have hnext :
        (before' ++ t.lexeme.toList ++ [' ']).count '\n' = (before ++ gap ++ slice).count '\n' := by
      simp only [List.count_append, hgap, hslice, hspace, newlines]
      omega
    obtain ⟨⟨ts', hcut, hwords, hlines⟩, hcount⟩ := ih hnext
    have hline : t.line = line + before.count '\n' := by
      have hplace := congrArg Position.line place
      simpa [Position.atEnd, List.count_append, hgap, Token.place] using hplace
    let p := Position.atEnd line (before' ++ [])
    have hsame : p.line = t.line := by
      rw [hline, ← newlines]
      simp [p, Position.atEnd]
    refine ⟨⟨⟨t.kind, t.lexeme, p.line, p.column, t.value⟩ :: ts', ?_, ?_, ?_⟩, ?_⟩
    · rw [Tokens.spaced_cons]
      change Cut line before' _ ([] ++ (t.lexeme.toList ++ ([' '] ++ Tokens.spaced ts))) []
      refine .token (.none _) ?_ ?_ rfl (Spelling.endsBefore_space _ _) ?_
      · rw [shown]
        exact lexeme.shown
      · rw [shown, Lexeme.lexemeOf_shown]
      · refine Cut.blank (.space rfl (.none _)) ?_
        rwa [List.append_nil]
    · rw [List.map_cons, hwords]
      rfl
    · rw [List.map_cons, List.map_cons, hlines, hsame]
    · simp only [Tokens.spaced_cons, List.count_append, hgap, hslice, hspace]
      omega

/-- The lexemes of a scan, with single spaces between them. -/
def Scan.printed (s : Scan) : String := " ".intercalate (s.tokens.map Token.lexeme)

/-- The end of a text shows nothing, so that there is a space after each of the other tokens. -/
theorem toList_intercalate_lexemes (ts : List Token) (p : Position) :
    (" ".intercalate ((ts ++ [Token.finishAt p]).map Token.lexeme)).toList = Tokens.spaced ts := by
  induction ts with
  | nil => rfl
  | cons t ts ih =>
    have hne : (ts ++ [Token.finishAt p]).map Token.lexeme ≠ [] := by simp
    rw [List.cons_append, List.map_cons, String.intercalate_cons_of_ne_nil hne,
      String.toList_append, String.toList_append, ih, Tokens.spaced_cons, List.append_assoc]
    rfl

/-- What is printed of a text without faults is scanned into the same tokens, on the same lines. -/
theorem rescanning_is_identity (line : Nat) (source : String)
    (scans : (scan line source).error = none) :
    (scan line (scan line source).printed).error = none ∧
      (scan line (scan line source).printed).tokens.map Token.word =
        (scan line source).tokens.map Token.word ∧
      (scan line (scan line source).printed).tokens.map Token.line =
        (scan line source).tokens.map Token.line := by
  obtain ⟨ts, rest, hcut, rfl | ⟨f, stands⟩⟩ := exists_cut line [] source.toList
  · obtain ⟨⟨ts', hcut', hwords, hlines⟩, hcount⟩ := hcut.respaced rfl
    have hscan : scan line source = _ := hcut.scanFrom_of_end
    have htokens := congrArg Scan.tokens hscan
    have hprinted : (scan line source).printed.toList = Tokens.spaced ts := by
      rw [hscan]
      exact toList_intercalate_lexemes ts _
    have hagain : scan line (scan line source).printed = _ :=
      (congrArg (scanFrom ⟨line, 0⟩) hprinted).trans hcut'.scanFrom_of_end
    have htokens' := congrArg Scan.tokens hagain
    have hend :
        (Position.atEnd line (Tokens.spaced ts)).line = (Position.atEnd line source.toList).line :=
      congrArg (line + ·) hcount
    refine ⟨congrArg Scan.error hagain, ?_, ?_⟩
    · rw [htokens, htokens', List.map_append, List.map_append, hwords]
      rfl
    · rw [htokens, htokens', List.map_append, List.map_append, hlines]
      exact congrArg (fun n => ts.map Token.line ++ [n]) hend
  · obtain ⟨read, -, hscan⟩ := hcut.scanFrom_of_fault stands
    have herror := congrArg Scan.error (show scan line source = _ from hscan)
    rw [scans] at herror
    cases herror

theorem rescanning_is_identity_crowded :
    (scan 7 "if A1<>1.'x\r\n\"it's\"").error = none ∧
      (scan 7 (scan 7 "if A1<>1.'x\r\n\"it's\"").printed).error = none ∧
      (scan 7 (scan 7 "if A1<>1.'x\r\n\"it's\"").printed).tokens.map Token.word =
        (scan 7 "if A1<>1.'x\r\n\"it's\"").tokens.map Token.word ∧
      (scan 7 (scan 7 "if A1<>1.'x\r\n\"it's\"").printed).tokens.map Token.line =
        (scan 7 "if A1<>1.'x\r\n\"it's\"").tokens.map Token.line :=
  have scans : (scan 7 "if A1<>1.'x\r\n\"it's\"").error = none := by decide +kernel
  ⟨scans, rescanning_is_identity 7 _ scans⟩

example : (scan 7 "if A1<>1.'x\r\n\"it's\"").printed = "IF A1 <> 1. \n \"it's\" " := by
  decide +kernel

end LineBasic
