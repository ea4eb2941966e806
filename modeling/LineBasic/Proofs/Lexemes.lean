import LineBasic.Proofs.Words

/-!
# Lexemes

What tokens are made of, without a scanner: a text is a lexeme of a kind, whatever stands around
it. Between two lexemes there may be spaces, and a comment that runs to the end of its line. A
place at which neither of them starts is one of three kinds. What the scanner finds at the start of
a text is what stands there.

* `Lexeme` : the texts of each kind of token, with the constants that they stand for.
* `Gap` : what may stand between lexemes.
* `LexFault.StandsAt` : the places that a fault is reported of.
* `Piece.Describes`, `piece_describes` : each piece is one of these.
* `Lexeme.piece_eq` : a lexeme is found wherever what comes next does not belong to it.
* `Lexeme.shown` : the upper-case spelling of a lexeme is one of the same kind.
-/

namespace LineBasic

/-- The texts of the kinds of tokens, and the constants that they stand for. -/
inductive Lexeme : TokenKind → List Char → Literal → Prop
  | sign {c : Char} {kind : TokenKind} (h : Piece.sign? c = some kind) : Lexeme kind [c] .nothing
  | less : Lexeme .less ['<'] .nothing
  | lessEqual : Lexeme .lessEqual ['<', '='] .nothing
  | notEqual : Lexeme .notEqual ['<', '>'] .nothing
  | greater : Lexeme .greater ['>'] .nothing
  | greaterEqual : Lexeme .greaterEqual ['>', '='] .nothing
  | text {body : List Char} (inside : ∀ c ∈ body, c ≠ Piece.quote ∧ c ≠ '\n') :
      Lexeme .text (Piece.quote :: (body ++ [Piece.quote])) (.text (String.ofList body))
  | integer {digits : List Char} {n : Int64} (nonempty : digits ≠ [])
      (all : ∀ c ∈ digits, Text.isDigit c = true) (value : n.toInt = Integer.ofDigits digits) :
      Lexeme .integer digits (.int n)
  | decimal {whole fraction : List Char} (nonempty : whole ≠ [])
      (all : ∀ c ∈ whole, Text.isDigit c = true) (all' : ∀ c ∈ fraction, Text.isDigit c = true) :
      Lexeme .decimal (whole ++ '.' :: fraction)
        (.float (Binary64.ofDigits whole fraction 0).toBits)
  | keyword {c : Char} {cs : List Char} {k : Keyword} (start : Text.isNameStart c = true)
      (parts : ∀ d ∈ cs, Text.isNamePart d = true)
      (reserved : Text.upperCase (String.ofList (c :: cs)) = k.text) :
      Lexeme (.word k) (c :: cs) .nothing
  | name {c : Char} {cs : List Char} (start : Text.isNameStart c = true)
      (parts : ∀ d ∈ cs, Text.isNamePart d = true)
      (free : ∀ k : Keyword, Text.upperCase (String.ofList (c :: cs)) ≠ k.text) :
      Lexeme .name (c :: cs) .nothing

/-- What may stand between lexemes, in front of `rest`: spaces, and then a comment
to the end of its line. -/
inductive Gap : List Char → List Char → Prop
  | none (rest : List Char) : Gap [] rest
  | space {c : Char} {gap rest : List Char} (blank : Text.isSpace c = true) (more : Gap gap rest) :
      Gap (c :: gap) rest
  | comment {body rest : List Char} (inLine : '\n' ∉ body) (ends : Text.AtLineEnd rest) :
      Gap (Piece.commentMark :: body) rest

/-- A character that neither a lexeme nor anything between lexemes starts with. -/
structure Foreign (c : Char) : Prop where
  space : Text.isSpace c = false
  comment : c ≠ Piece.commentMark
  lexeme : ∀ kind slice value, Lexeme kind slice value → c ∉ slice.head?

/-- The places that a fault is reported of: a foreign character, a string without an end on its
line, and digits of a number that does not fit in 64 bits. -/
inductive LexFault.StandsAt : LexFault → List Char → Prop
  | illegalCharacter {c : Char} {rest : List Char} (foreign : Foreign c) :
      StandsAt (.illegalCharacter c) (c :: rest)
  | unterminatedString {body rest : List Char} (inside : ∀ c ∈ body, c ≠ Piece.quote ∧ c ≠ '\n')
      (ends : Text.AtLineEnd rest) : StandsAt .unterminatedString (Piece.quote :: (body ++ rest))
  | invalidNumber {digits rest : List Char} (nonempty : digits ≠ [])
      (all : ∀ c ∈ digits, Text.isDigit c = true) (ends : TokenKind.EndsBefore .integer rest)
      (large : Int64.maxValue.toInt < Integer.ofDigits digits) :
      StandsAt (.invalidNumber (String.ofList digits)) (digits ++ rest)

/-! ### Prefixes of a text -/

/-- A text is cut after the characters at its start that are such, and before one that is not. -/
theorem exists_takeWhile (f : Char → Bool) (l : List Char) :
    ∃ front back, l = front ++ back ∧ l.takeWhile f = front ∧ (∀ c ∈ front, f c = true) ∧
      ∀ c ∈ back.head?, f c = false := by
  refine ⟨l.takeWhile f, l.dropWhile f, List.takeWhile_append_dropWhile.symm, rfl,
    fun c hc => List.mem_takeWhile_imp hc, fun c hc => ?_⟩
  have hhead := List.head?_dropWhile_not f l
  rw [hc] at hhead
  exact hhead

/-! ### Reserved words and large numbers -/

theorem Keyword.ofText?_eq_some_iff {s : String} {k : Keyword} :
    Keyword.ofText? s = some k ↔ s = k.text := by
  constructor
  · intro h
    have hfound := List.find?_some h
    exact (of_decide_eq_true hfound).symm
  · rintro rfl
    exact Keyword.ofText?_text k

theorem Keyword.ofText?_eq_none_iff {s : String} : Keyword.ofText? s = none ↔ ∀ k :
    Keyword, s ≠ k.text := by
  rw [Option.eq_none_iff_forall_ne_some]
  exact forall_congr' fun k => not_congr Keyword.ofText?_eq_some_iff

theorem Integer.ofInt?_natCast_eq_none_iff {n : Nat} :
    Integer.ofInt? (n : Int) = none ↔ Int64.maxValue.toInt < n := by
  have hmin : Int64.minValue.toInt = -2 ^ 63 := rfl
  have hmax : Int64.maxValue.toInt = 2 ^ 63 - 1 := rfl
  unfold Integer.ofInt?
  split
  · simp only [reduceCtorEq, false_iff]
    omega
  · simp only [true_iff]
    omega

/-! ### Pieces -/

namespace Piece

variable {c : Char} {rest : List Char}

/-- What a piece says of the start of the text `c :: rest`. -/
inductive Describes (c : Char) (rest : List Char) : Piece → Prop
  | blank {n : Nat} (gap : Gap (c :: rest.take n) (rest.drop n)) : Describes c rest (.blank n)
  | token {kind : TokenKind} {n : Nat} {value : Literal}
      (lexeme : Lexeme kind (c :: rest.take n) value) (ends : kind.EndsBefore (rest.drop n)) :
      Describes c rest (.token kind n value)
  | fault {f : LexFault} (stands : f.StandsAt (c :: rest)) : Describes c rest (.fault f)

/-- A sign of one character is complete, and shown as it is. -/
theorem sign?_plain (d : Char) :
    ∀ kind ∈ sign? c, kind.goesOn d = false ∧ ∀ cs, lexemeOf kind cs = String.ofList cs := by
  intro kind h
  have hall : ∀ p ∈ signs, p.2.goesOn d = false ∧ ∀ cs, lexemeOf p.2 cs = String.ofList cs := by
    simp [signs, TokenKind.goesOn, lexemeOf]
  exact hall _ (mem_signs h)

theorem sign_describes {kind : TokenKind} (h : sign? c = some kind) :
    (plain kind 0).Describes c rest :=
  .token (.sign h) fun d _ => (sign?_plain d kind h).1

theorem lessSign_describes (rest : List Char) : (lessSign rest).Describes '<' rest := by
  unfold lessSign
  split
  · exact .token .lessEqual fun _ _ => rfl
  · exact .token .notEqual fun _ _ => rfl
  · next hequal hgreater =>
    refine .token .less ?_
    cases rest with
    | nil => simp [TokenKind.EndsBefore]
    | cons d ds =>
      have hne : d ≠ '=' ∧ d ≠ '>' := ⟨fun h => hequal ds (h ▸ rfl), fun h => hgreater ds (h ▸ rfl)⟩
      simpa [TokenKind.EndsBefore, TokenKind.goesOn] using hne

theorem greaterSign_describes (rest : List Char) : (greaterSign rest).Describes '>' rest := by
  unfold greaterSign
  split
  · exact .token .greaterEqual fun _ _ => rfl
  · next hequal =>
    refine .token .greater ?_
    cases rest with
    | nil => simp [TokenKind.EndsBefore]
    | cons d ds =>
      have hne : d ≠ '=' := fun h => hequal ds (h ▸ rfl)
      simpa [TokenKind.EndsBefore, TokenKind.goesOn] using hne

theorem string_describes (rest : List Char) : (string rest).Describes quote rest := by
  obtain ⟨body, after, rfl, htake, hbody, hafter⟩ :=
    exists_takeWhile (fun c => c ≠ quote && c ≠ '\n') rest
  have hinside : ∀ c ∈ body, c ≠ quote ∧ c ≠ '\n' := fun c hc => by simpa using hbody c hc
  simp only [string, htake, List.drop_left]
  cases after with
  | nil => exact .fault (.unterminatedString hinside Text.atLineEnd_nil)
  | cons d ds =>
    by_cases hd : d = quote
    · subst hd
      have hslice : (body ++ quote :: ds).take (body.length + 1) = body ++ [quote] := by
        rw [List.append_cons, List.take_left' (by simp)]
      simp only [if_true]
      refine .token ?_ fun _ _ => rfl
      rw [hslice]
      exact .text hinside
    · have hnewline : d = '\n' := by simpa [hd] using hafter d rfl
      simp only [if_neg hd]
      exact .fault (.unterminatedString hinside (hnewline ▸ Text.atLineEnd_newline ds))

theorem decimal_describes {whole : List Char} (hwhole : ∀ d ∈ c :: whole, Text.isDigit d = true)
    (r : List Char) :
    Describes c (whole ++ '.' :: r)
      (.token .decimal (whole.length + 1 + (r.takeWhile Text.isDigit).length)
      (.float (Binary64.ofDigits (c :: whole) (r.takeWhile Text.isDigit) 0).toBits)) := by
  obtain ⟨fraction, after, rfl, htake, hfraction, hafter⟩ := exists_takeWhile Text.isDigit r
  have hsplit : whole ++ '.' :: (fraction ++ after) = (whole ++ '.' :: fraction) ++ after := by simp
  have hlength : whole.length + 1 + fraction.length = (whole ++ '.' :: fraction).length := by
    simp; omega
  rw [htake, hsplit, hlength]
  refine .token ?_ ?_
  · rw [List.take_left]
    exact .decimal (List.cons_ne_nil c whole) hwhole hfraction
  · rw [List.drop_left]
    exact hafter

theorem number_describes (hc : Text.isDigit c = true) (rest : List Char) :
    (number c rest).Describes c rest := by
  obtain ⟨whole, after, rfl, htake, hdigits, hafter⟩ := exists_takeWhile Text.isDigit rest
  have hwhole : ∀ d ∈ c :: whole, Text.isDigit d = true := List.forall_mem_cons.2 ⟨hc, hdigits⟩
  simp only [number, htake, List.drop_left]
  split
  · next r => exact decimal_describes hwhole r
  · next hpoint =>
    have hends : TokenKind.EndsBefore .integer after := by
      intro d hd
      have hne : d ≠ '.' := by
        rintro rfl
        cases after with
        | nil => cases hd
        | cons e es =>
          obtain rfl := Option.some.inj hd
          exact hpoint es rfl
      simp [TokenKind.goesOn, hafter d hd, hne]
    rw [Word.read?_digits hwhole]
    split
    · next n hn =>
      refine .token ?_ ?_
      · rw [List.take_left]
        exact .integer (List.cons_ne_nil c whole) hwhole (Integer.ofInt?_eq_some hn)
      · rw [List.drop_left]
        exact hends
    · next hnone =>
      exact .fault (.invalidNumber (List.cons_ne_nil c whole) hwhole hends
        (Integer.ofInt?_natCast_eq_none_iff.1 hnone))

theorem name_describes (hc : Text.isNameStart c = true) (rest : List Char) :
    (name c rest).Describes c rest := by
  obtain ⟨more, after, rfl, htake, hparts, hafter⟩ := exists_takeWhile Text.isNamePart rest
  simp only [name, htake]
  split
  · next k hk =>
    refine .token ?_ ?_
    · rw [List.take_left]
      exact .keyword hc hparts (Keyword.ofText?_eq_some_iff.1 hk)
    · rw [List.drop_left]
      exact hafter
  · next hnone =>
    refine .token ?_ ?_
    · rw [List.take_left]
      exact .name hc hparts (Keyword.ofText?_eq_none_iff.1 hnone)
    · rw [List.drop_left]
      exact hafter

theorem comment_describes (rest : List Char) :
    Describes commentMark rest (.blank (rest.takeWhile fun d => d ≠ '\n').length) := by
  obtain ⟨body, after, rfl, htake, hbody, hafter⟩ := exists_takeWhile (fun d => d ≠ '\n') rest
  rw [htake]
  refine .blank ?_
  rw [List.take_left, List.drop_left]
  refine .comment (fun h => ?_) fun d hd => ?_
  · simpa using hbody _ h
  · simpa using hafter d hd

end Piece

/-- A character that nothing is made of can only stand alone. -/
theorem foreign_of_ne {c : Char} (sign : Piece.sign? c = none) (less : c ≠ '<') (greater : c ≠ '>')
    (comment : c ≠ Piece.commentMark) (quote : c ≠ Piece.quote) (space : Text.isSpace c = false)
    (digit : Text.isDigit c = false) (start : Text.isNameStart c = false) : Foreign c := by
  refine ⟨space, comment, fun kind slice value h hc => ?_⟩
  have hdigits {digits : List Char} (nonempty : digits ≠ [])
      (all : ∀ d ∈ digits, Text.isDigit d = true)
      (after : List Char) : c ∉ (digits ++ after).head? := by
    cases digits with
    | nil => exact absurd rfl nonempty
    | cons d ds =>
      intro hd
      obtain rfl := Option.some.inj hd
      rw [all d (.head _)] at digit
      cases digit
  have hstart {cs : List Char} {d : Char} (hd : Text.isNameStart d = true) :
      c ∉ (d :: cs).head? := by
    intro he
    obtain rfl := Option.some.inj he
    rw [hd] at start
    cases start
  cases h with
  | sign h =>
    obtain rfl := Option.some.inj hc
    rw [sign] at h
    cases h
  | less => exact less (Option.some.inj hc).symm
  | lessEqual => exact less (Option.some.inj hc).symm
  | notEqual => exact less (Option.some.inj hc).symm
  | greater => exact greater (Option.some.inj hc).symm
  | greaterEqual => exact greater (Option.some.inj hc).symm
  | text => exact quote (Option.some.inj hc).symm
  | integer nonempty all => exact hdigits nonempty all [] (by rwa [List.append_nil])
  | decimal nonempty all => exact hdigits nonempty all _ hc
  | keyword start => exact hstart start hc
  | name start => exact hstart start hc

/-- The piece at the start of a text is what stands there. -/
theorem piece_describes (c : Char) (rest : List Char) : (piece c rest).Describes c rest := by
  unfold piece
  split
  · next kind hsign => exact Piece.sign_describes hsign
  · next hsign =>
    by_cases hless : c = '<'
    · subst hless
      exact Piece.lessSign_describes rest
    by_cases hgreater : c = '>'
    · subst hgreater
      exact Piece.greaterSign_describes rest
    by_cases hcomment : c = Piece.commentMark
    · subst hcomment
      exact Piece.comment_describes rest
    by_cases hquote : c = Piece.quote
    · subst hquote
      exact Piece.string_describes rest
    rw [if_neg hless, if_neg hgreater, if_neg hcomment, if_neg hquote]
    split
    · next hspace => exact .blank (.space hspace (.none rest))
    · next hspace =>
      split
      · next hdigit => exact Piece.number_describes hdigit rest
      · next hdigit =>
        split
        · next hstart => exact Piece.name_describes hstart rest
        · next hstart =>
          exact .fault (.illegalCharacter (foreign_of_ne hsign hless hgreater hcomment hquote
            (Bool.eq_false_iff.2 hspace) (by simpa using hdigit) (by simpa using hstart)))

/-! ### What is found -/

namespace Lexeme

variable {kind : TokenKind} {slice rest : List Char} {value : Literal}

/-- A lexeme is found, and nothing more, wherever what comes next does not belong to it. -/
theorem piece_eq (h : Lexeme kind slice value) (ends : kind.EndsBefore rest) :
    ∃ c cs, slice = c :: cs ∧ piece c (cs ++ rest) = .token kind cs.length value := by
  have hscans {w : Word} (hw : w.Scans) (hends : w.kind.EndsBefore rest) :
      ∃ c cs, w.text.toList = c :: cs ∧ piece c (cs ++ rest) = .token w.kind cs.length w.value := by
    obtain ⟨c, cs, htext, hpiece⟩ := hw.piece
    exact ⟨c, cs, htext, hpiece rest hends⟩
  cases h with
  | @sign c kind hsign => exact ⟨c, [], rfl, by rw [piece, hsign]; rfl⟩
  | less => exact hscans Word.scans_less ends
  | lessEqual => exact hscans Word.scans_lessEqual ends
  | notEqual => exact hscans Word.scans_notEqual ends
  | greater => exact hscans Word.scans_greater ends
  | greaterEqual => exact hscans Word.scans_greaterEqual ends
  | @text body inside =>
    have hquoted :=
      hscans (Word.scans_quoted (s := String.ofList body) (by simpa using inside)) ends
    simpa [Word.quoted, Piece.quote] using hquoted
  | integer nonempty all value =>
    cases slice with
    | nil => exact absurd rfl nonempty
    | cons c cs =>
      refine ⟨c, cs, rfl, ?_⟩
      rw [Word.piece_digits all ends, ← value, Integer.ofInt?_toInt]
  | decimal nonempty all all' =>
    have hdecimal := hscans (Word.scans_decimal nonempty all all') ends
    simpa [Word.decimal] using hdecimal
  | @keyword c cs k start parts reserved =>
    refine ⟨c, cs, rfl, ?_⟩
    rw [Word.piece_word String.toList_ofList start parts ends,
      Keyword.ofText?_eq_some_iff.2 reserved]
    rfl
  | @name c cs start parts free =>
    refine ⟨c, cs, rfl, ?_⟩
    rw [Word.piece_word String.toList_ofList start parts ends, Keyword.ofText?_eq_none_iff.2 free]
    rfl

end Lexeme

namespace LexFault.StandsAt

variable {c : Char} {rest : List Char}

/-- Nothing but the fault can be found at a foreign character. -/
theorem piece_foreign (h : Foreign c) : piece c rest = .fault (.illegalCharacter c) := by
  have hlexeme {kind : TokenKind} {slice : List Char} {value : Literal}
      (hslice : Lexeme kind slice value)
      (hc : slice.head? = some c) : False := h.lexeme kind slice value hslice hc
  have hfound := piece_describes c rest
  generalize hpiece : piece c rest = p at hfound
  cases hfound with
  | blank gap =>
    cases gap with
    | space blank =>
      rw [h.space] at blank
      cases blank
    | comment => exact absurd rfl h.comment
  | token lexeme => exact (hlexeme lexeme rfl).elim
  | fault stands =>
    generalize htext : c :: rest = text at stands
    cases stands with
    | illegalCharacter =>
      cases htext
      rfl
    | unterminatedString =>
      cases htext
      -- a string starts with the quote as well
      exact (hlexeme (.text (List.forall_mem_nil _)) rfl).elim
    | @invalidNumber digits after nonempty all =>
      cases digits with
      | nil => exact absurd rfl nonempty
      | cons d ds =>
        cases htext
        -- and a decimal number with its digits
        exact (hlexeme (.decimal nonempty all (List.forall_mem_nil _)) rfl).elim

theorem piece_string {body : List Char} (inside : ∀ c ∈ body, c ≠ Piece.quote ∧ c ≠ '\n')
    (ends : Text.AtLineEnd rest) :
    piece Piece.quote (body ++ rest) = .fault .unterminatedString := by
  have htake : (body ++ rest).takeWhile (fun c => c ≠ Piece.quote && c ≠ '\n') = body := by
    refine takeWhile_append_of_all (fun c hc => by simpa using inside c hc) fun c hc => ?_
    simp [ends c hc]
  show Piece.string (body ++ rest) = _
  rw [Piece.string, htake, List.drop_left]
  cases rest with
  | nil => rfl
  | cons d ds =>
    obtain rfl : d = '\n' := ends d rfl
    rfl

theorem piece_number {cs : List Char} (all : ∀ d ∈ c :: cs, Text.isDigit d = true)
    (ends : TokenKind.EndsBefore .integer rest)
    (large : Int64.maxValue.toInt < Integer.ofDigits (c :: cs)) :
    piece c (cs ++ rest) = .fault (.invalidNumber (String.ofList (c :: cs))) := by
  rw [Word.piece_digits all ends, Integer.ofInt?_natCast_eq_none_iff.2 large]

theorem ne_nil {f : LexFault} {text : List Char} (h : f.StandsAt text) : text ≠ [] := by
  cases h with
  | illegalCharacter => exact List.cons_ne_nil _ _
  | unterminatedString => exact List.cons_ne_nil _ _
  | invalidNumber nonempty => exact List.append_ne_nil_of_left_ne_nil nonempty _

/-- A fault is reported wherever its place is. -/
theorem piece_eq {f : LexFault} (h : f.StandsAt (c :: rest)) : piece c rest = .fault f := by
  generalize htext : c :: rest = text at h
  cases h with
  | illegalCharacter foreign =>
    cases htext
    exact piece_foreign foreign
  | unterminatedString inside ends =>
    cases htext
    exact piece_string inside ends
  | @invalidNumber digits after nonempty all ends large =>
    cases digits with
    | nil => exact absurd rfl nonempty
    | cons d ds =>
      cases htext
      exact piece_number all ends large

end LexFault.StandsAt

namespace Lexeme

variable {kind : TokenKind} {slice rest : List Char} {value : Literal}

/-- Only newlines have a newline in them. -/
theorem newline_not_mem (h : Lexeme kind slice value) (hkind : kind ≠ .newline) : '\n' ∉ slice := by
  have hdigits {digits : List Char} (all : ∀ c ∈ digits, Text.isDigit c = true) : '\n' ∉ digits :=
    fun hmem => absurd (all _ hmem) (by decide)
  have hname {c : Char} {cs : List Char} (start : Text.isNameStart c = true)
      (parts : ∀ d ∈ cs, Text.isNamePart d = true) : '\n' ∉ c :: cs := by
    rintro (_ | ⟨_, hmem⟩)
    · cases start
    · exact absurd (parts _ hmem) (by decide)
  cases h with
  | sign hsign =>
    intro hmem
    obtain rfl := List.mem_singleton.1 hmem
    cases hsign
    exact hkind rfl
  | less => decide
  | lessEqual => decide
  | notEqual => decide
  | greater => decide
  | greaterEqual => decide
  | text inside =>
    simp only [List.mem_cons, List.mem_append, List.not_mem_nil, or_false]
    rintro (hquote | hmem | hquote)
    · cases hquote
    · exact (inside _ hmem).2 rfl
    · cases hquote
  | integer nonempty all => exact hdigits all
  | decimal nonempty all all' =>
    simp only [List.mem_append, List.mem_cons]
    rintro (hmem | hpoint | hmem)
    · exact hdigits all hmem
    · cases hpoint
    · exact hdigits all' hmem
  | keyword start parts => exact hname start parts
  | name start parts => exact hname start parts

theorem kind_ne_finish (h : Lexeme kind slice value) : kind ≠ .finish := by
  rintro rfl
  cases h with
  | sign hsign =>
    -- of the signs that end a line, there is only the newline
    obtain rfl := (Piece.sign?_spec _ hsign).2 rfl
    cases hsign

theorem newline_eq (h : Lexeme .newline slice value) : slice = ['\n'] := by
  cases h with
  | sign hsign => rw [(Piece.sign?_spec _ hsign).2 rfl]

end Lexeme

/-! ### Upper case -/

namespace Text

theorem upperCase_upperCase (s : String) : upperCase (upperCase s) = upperCase s := by
  have htwice (c : Char) : c.toUpper.toUpper = c.toUpper := by
    rcases toUpper_cases c with hc | ⟨-, hc⟩
    · rw [hc, hc]
    · have hlower : ¬ (c.toUpper ≥ 'a' ∧ c.toUpper ≤ 'z') := fun h =>
        absurd (Char.le_trans h.1 hc.2) (by decide)
      exact dif_neg hlower
  simp [upperCase, Function.comp_def, htwice]

theorem toList_upperCase (cs : List Char) :
    (upperCase (String.ofList cs)).toList = cs.map Char.toUpper := by
  simp [upperCase]

theorem isNameStart_toUpper {c : Char} (h : isNameStart c = true) :
    isNameStart c.toUpper = true := by
  rcases toUpper_cases c with hc | ⟨-, hc⟩
  · rwa [hc]
  · simp [isNameStart, isLetter_of_capital hc]

theorem forall_isNamePart_toUpper {cs : List Char} (h : ∀ d ∈ cs, isNamePart d = true) :
    ∀ d ∈ cs.map Char.toUpper, isNamePart d = true := by
  simp only [List.forall_mem_map]
  exact fun d hd => isNamePart_toUpper (h d hd)

end Text

namespace Lexeme

variable {kind : TokenKind} {slice : List Char} {value : Literal}

/-- What is shown of a lexeme is a lexeme of the same kind, for the same constant. -/
theorem shown (h : Lexeme kind slice value) : Lexeme kind (lexemeOf kind slice).toList value := by
  have hsame {kind : TokenKind} {slice : List Char} (h : Lexeme kind slice value)
      (hshown : lexemeOf kind slice = String.ofList slice) :
        Lexeme kind (lexemeOf kind slice).toList value := by
    rwa [hshown, String.toList_ofList]
  have hupper (c : Char) (cs : List Char) :
      Text.upperCase (String.ofList (c.toUpper :: cs.map Char.toUpper)) =
      Text.upperCase (String.ofList (c :: cs)) := by
    rw [← List.map_cons, ← Text.toList_upperCase, String.ofList_toList, Text.upperCase_upperCase]
  cases id h with
  | @sign c kind hsign => exact hsame h ((Piece.sign?_plain c kind hsign).2 _)
  | less => exact hsame h rfl
  | lessEqual => exact hsame h rfl
  | notEqual => exact hsame h rfl
  | greater => exact hsame h rfl
  | greaterEqual => exact hsame h rfl
  | text => exact hsame h rfl
  | integer => exact hsame h rfl
  | decimal => exact hsame h rfl
  | keyword start parts reserved =>
    rw [lexemeOf, Text.toList_upperCase, List.map_cons]
    exact .keyword (Text.isNameStart_toUpper start) (Text.forall_isNamePart_toUpper parts)
      ((hupper _ _).trans reserved)
  | name start parts free =>
    rw [lexemeOf, Text.toList_upperCase, List.map_cons]
    exact .name (Text.isNameStart_toUpper start) (Text.forall_isNamePart_toUpper parts)
      fun k => by rw [hupper]; exact free k

theorem lexemeOf_shown (kind : TokenKind) (slice : List Char) :
    lexemeOf kind (lexemeOf kind slice).toList = lexemeOf kind slice := by
  cases kind with
  | name => simp [lexemeOf, Text.upperCase_upperCase]
  | word k => simp [lexemeOf, Text.upperCase_upperCase]
  | _ => simp [lexemeOf]

theorem count_shown (h : Lexeme kind slice value) :
    (lexemeOf kind slice).toList.count '\n' = slice.count '\n' := by
  by_cases hkind : kind = .newline
  · subst hkind
    rw [h.newline_eq]
    rfl
  · rw [List.count_eq_zero.2 (h.newline_not_mem hkind),
      List.count_eq_zero.2 (h.shown.newline_not_mem hkind)]

end Lexeme

end LineBasic
