import Mathlib.Data.List.TakeWhile
import LineBasic.Proofs.Scanning

/-!
# Words and the texts that they are scanned from

A word is what a token says, without its place. In a text, words stand one after another, with
blanks between them where they would run into each other, and anywhere else as one likes. Scanning
such a text gives the words.

* `Word` : a kind, a text and a constant.
* `TokenKind.goesOn` : the characters that a word of a kind would go on with.
* `Word.Scans` : a word is scanned wherever what comes next does not belong to it.
* `Word.scans_integer`, `Word.scans_decimal`, `Word.scans_quoted`, `Word.scans_name`,
  `Word.scans_keyword`, `Word.scans_sign` : so are all words of expressions.
* `Spelling` : a text that consists of words. `Spelling.spaced` : words with
  single spaces between them.
* `Spelling.scanFrom` : the scan of such a text.
-/

namespace LineBasic

/-- What a token says. -/
structure Word where
  kind : TokenKind
  text : String
  value : Literal
  deriving DecidableEq, Repr

/-- A token without its place. -/
def Token.word (t : Token) : Word := ⟨t.kind, t.lexeme, t.value⟩

/-- A word of a kind would not end before such a character. -/
def TokenKind.goesOn : TokenKind → Char → Bool
  | .name, c => Text.isNamePart c
  | .word _, c => Text.isNamePart c
  | .integer, c => Text.isDigit c || c = '.'
  | .decimal, c => Text.isDigit c
  | .less, c => c = '=' || c = '>'
  | .greater, c => c = '='
  | _, _ => false

/-- A text does not start with a character that a word of a kind would go on with. -/
def TokenKind.EndsBefore (kind : TokenKind) (rest : List Char) : Prop :=
  ∀ c ∈ rest.head?, kind.goesOn c = false

/-- The word is scanned from its text, as long as what comes next does not belong to it. -/
structure Word.Scans (w : Word) : Prop where
  piece : ∃ c cs, w.text.toList = c :: cs ∧
    ∀ rest, w.kind.EndsBefore rest → piece c (cs ++ rest) = .token w.kind cs.length w.value
  lexeme : lexemeOf w.kind w.text.toList = w.text
  inLine : w.kind.endsLine = false

/-! ### Names and reserved words -/

/-- A prefix of such characters is all that is taken of a text. -/
theorem takeWhile_append_of_all {f : Char → Bool} {l rest : List Char} (hl : ∀ c ∈ l, f c = true)
    (hrest : ∀ c ∈ rest.head?, f c = false) : (l ++ rest).takeWhile f = l := by
  rw [List.takeWhile_append_of_pos hl]
  cases rest with
  | nil => simp
  | cons c cs => simp [hrest c rfl]

namespace Word

/-- A word without a constant. -/
def plain (kind : TokenKind) (text : String) : Word := ⟨kind, text, .nothing⟩

/-- A name. -/
def name (x : String) : Word := plain .name x

/-- A reserved word. -/
def keyword (k : Keyword) : Word := plain (.word k) k.text

/-- An integer. -/
def integer (n : Int64) : Word := ⟨.integer, Integer.write n, .int n⟩

/-- A decimal number, by its digits before and after the point. -/
def decimal (whole fraction : List Char) : Word :=
  ⟨.decimal, String.ofList (whole ++ '.' :: fraction),
    .float (Binary64.ofDigits whole fraction 0).toBits⟩

/-- A string in quotes. -/
def quoted (s : String) : Word := ⟨.text, "\"" ++ s ++ "\"", .text s⟩

/-- What starts like a name is a reserved word or a name, to its end. -/
theorem piece_word {s : String} {c : Char} {cs rest : List Char} (hs : s.toList = c :: cs)
    (start : Text.isNameStart c = true) (parts : ∀ d ∈ cs, Text.isNamePart d = true)
    (hrest : ∀ d ∈ rest.head?, Text.isNamePart d = false) :
    LineBasic.piece c (cs ++ rest) =
      Piece.plain ((Keyword.ofText? (Text.upperCase s)).elim .name .word) cs.length := by
  have htext : String.ofList (c :: cs) = s := by rw [← hs, String.ofList_toList]
  rw [piece_of_isNameStart start, Piece.name, takeWhile_append_of_all parts hrest, htext]
  cases Keyword.ofText? (Text.upperCase s) <;> rfl

theorem scans_name {x : String} (h : Text.isName x = true) (upper : Text.upperCase x = x) :
    (name x).Scans := by
  unfold Text.isName at h
  split at h
  · cases h
  · next c cs hx =>
    simp only [Bool.and_eq_true, Option.isNone_iff_eq_none, List.all_eq_true] at h
    obtain ⟨⟨start, parts⟩, free⟩ := h
    refine ⟨⟨c, cs, hx, fun rest hrest => ?_⟩, ?_, rfl⟩
    · rw [piece_word hx start parts hrest, free]
      rfl
    · show Text.upperCase (String.ofList x.toList) = x
      rw [String.ofList_toList, upper]

/-- The spelling of a reserved word is that of a name, in upper case. -/
theorem keyword_shape (k : Keyword) : k.text.toList.head?.any Text.isNameStart = true ∧
    Text.isWord k.text = true ∧ Text.upperCase k.text = k.text := by
  cases k <;> decide

theorem scans_keyword (k : Keyword) : (keyword k).Scans := by
  obtain ⟨hstart, hword, upper⟩ := keyword_shape k
  cases hk : k.text.toList with
  | nil => simp [hk] at hstart
  | cons c cs =>
    have start : Text.isNameStart c = true := by simpa [hk] using hstart
    have parts : ∀ d ∈ cs, Text.isNamePart d = true := by
      rw [Text.isWord, hk, List.all_eq_true] at hword
      exact fun d hd => hword d (.tail _ hd)
    refine ⟨⟨c, cs, hk, fun rest hrest => ?_⟩, ?_, rfl⟩
    · rw [piece_word hk start parts hrest, upper, Keyword.ofText?_text]
      rfl
    · show Text.upperCase (String.ofList k.text.toList) = k.text
      rw [String.ofList_toList, upper]

/-! ### Constants -/

theorem piece_of_isDigit {c : Char} (h : Text.isDigit c = true) (rest : List Char) :
    LineBasic.piece c rest = Piece.number c rest := by
  have hne : ∀ d, Text.isDigit d = false → c ≠ d := by
    rintro d hd rfl
    simp [hd] at h
  have hsign : Piece.sign? c = none := by simp (disch := decide) [Piece.sign?, hne]
  simp (disch := decide) [LineBasic.piece, hsign, hne, h]

theorem scans_decimal {whole fraction : List Char} (hne : whole ≠ [])
    (hwhole : ∀ c ∈ whole, Text.isDigit c = true)
    (hfraction : ∀ c ∈ fraction, Text.isDigit c = true) :
    (decimal whole fraction).Scans := by
  cases whole with
  | nil => exact absurd rfl hne
  | cons c cs =>
    have hcs : ∀ d ∈ cs, Text.isDigit d = true := fun d hd => hwhole d (.tail _ hd)
    refine ⟨⟨c, cs ++ '.' :: fraction, by simp [decimal], fun rest hrest => ?_⟩,
      String.ofList_toList, rfl⟩
    have htake : (cs ++ '.' :: (fraction ++ rest)).takeWhile Text.isDigit = cs :=
      takeWhile_append_of_all hcs (by simp [Text.isDigit])
    rw [piece_of_isDigit (hwhole c (.head _)), Piece.number, List.append_assoc,
      List.cons_append, htake, List.drop_left]
    simp only [takeWhile_append_of_all hfraction hrest]
    simp [decimal]
    omega

theorem isDigit_of_mem_toDigits {n : Nat} {c : Char} (h : c ∈ Nat.toDigits 10 n) :
    Text.isDigit c = true := Nat.isDigit_of_mem_toDigits (by decide) (by decide) h

/-- Digits spell a number of 64 bits, or a larger one. -/
theorem read?_digits {c : Char} {cs : List Char} (all : ∀ d ∈ c :: cs, Text.isDigit d = true) :
    Integer.read? (c :: cs) = Integer.ofInt? (Integer.ofDigits (c :: cs)) := by
  have hall : (c :: cs).all Text.isDigit = true := List.all_eq_true.2 all
  have hnat : Integer.readNat? (c :: cs) = some (Integer.ofDigits (c :: cs)) := by
    rw [Integer.readNat?, hall]
    rfl
  unfold Integer.read?
  split
  · next heq =>
    cases heq
    cases all '-' (.head _)
  · next heq =>
    cases heq
    cases all '+' (.head _)
  · rw [hnat]
    rfl

/-- Digits that no point comes after are taken for an integer. -/
theorem piece_digits {c : Char} {cs rest : List Char} (all : ∀ d ∈ c :: cs, Text.isDigit d = true)
    (ends : TokenKind.EndsBefore .integer rest) : LineBasic.piece c (cs ++ rest) =
      match Integer.ofInt? (Integer.ofDigits (c :: cs)) with
      | some n => .token .integer cs.length (.int n)
      | none => .fault (.invalidNumber (String.ofList (c :: cs))) := by
  have hstop : ∀ d ∈ rest.head?, Text.isDigit d = false ∧ d ≠ '.' := fun d hd => by
    simpa [TokenKind.goesOn] using ends d hd
  have htake : (cs ++ rest).takeWhile Text.isDigit = cs :=
    takeWhile_append_of_all (fun d hd => all d (.tail _ hd)) fun d hd => (hstop d hd).1
  rw [piece_of_isDigit (all c (.head _)), Piece.number, htake, List.drop_left, read?_digits all]
  split
  · exact absurd rfl (hstop '.' rfl).2
  · rfl

theorem scans_integer {n : Int64} (h : 0 ≤ n) : (integer n).Scans := by
  have hn : 0 ≤ n.toInt := Int64.le_iff_toInt_le.1 h
  have hwrite : (Integer.write n).toList = Nat.toDigits 10 n.toInt.natAbs := by
    simp [Integer.write, Integer.writeInt, Integer.writeNat, Int.not_lt.2 hn]
  have hvalue : Integer.ofDigits (Nat.toDigits 10 n.toInt.natAbs) = n.toInt.natAbs :=
    Nat.ofDigitChars_ten_toDigits
  cases hdigits : Nat.toDigits 10 n.toInt.natAbs with
  | nil => exact absurd hdigits Nat.toDigits_ne_nil
  | cons c cs =>
    have hall : ∀ d ∈ c :: cs, Text.isDigit d = true := fun d hd =>
      isDigit_of_mem_toDigits (hdigits ▸ hd)
    refine ⟨⟨c, cs, hwrite.trans hdigits, fun rest hrest => ?_⟩, String.ofList_toList, rfl⟩
    rw [piece_digits hall hrest, ← hdigits, hvalue, Int.natAbs_of_nonneg hn, Integer.ofInt?_toInt]
    rfl

theorem scans_quoted {s : String} (h : ∀ c ∈ s.toList, c ≠ Piece.quote ∧ c ≠ '\n') :
    (quoted s).Scans := by
  refine ⟨⟨Piece.quote, s.toList ++ [Piece.quote], by simp [quoted, Piece.quote], fun rest _ => ?_⟩,
    String.ofList_toList, rfl⟩
  have htake : (s.toList ++ Piece.quote :: rest).takeWhile (fun c => c ≠ Piece.quote && c ≠ '\n') =
      s.toList := by
    refine takeWhile_append_of_all (fun c hc => ?_) (by simp)
    simpa using h c hc
  show Piece.string (s.toList ++ [Piece.quote] ++ rest) = _
  rw [Piece.string, List.append_assoc, List.singleton_append, htake, List.drop_left]
  simp [quoted]

/-! ### Signs -/

theorem scans_sign {c : Char} {kind : TokenKind} (h : Piece.sign? c = some kind)
    (lexeme : lexemeOf kind [c] = String.singleton c) (inLine : kind.endsLine = false) :
    (plain kind (String.singleton c)).Scans := by
  refine ⟨⟨c, [], by simp [plain], fun rest _ => ?_⟩, ?_, inLine⟩
  · simp only [LineBasic.piece, h]
    rfl
  · simpa [plain] using lexeme

theorem scans_less : (plain .less "<").Scans := by
  refine ⟨⟨'<', [], rfl, fun rest hrest => ?_⟩, String.ofList_toList, rfl⟩
  show Piece.lessSign rest = _
  unfold Piece.lessSign
  split
  · cases hrest '=' rfl
  · cases hrest '>' rfl
  · rfl

theorem scans_greater : (plain .greater ">").Scans := by
  refine ⟨⟨'>', [], rfl, fun rest hrest => ?_⟩, String.ofList_toList, rfl⟩
  show Piece.greaterSign rest = _
  unfold Piece.greaterSign
  split
  · cases hrest '=' rfl
  · rfl

theorem scans_lessEqual : (plain .lessEqual "<=").Scans :=
  ⟨⟨'<', ['='], rfl, fun _ _ => rfl⟩, rfl, rfl⟩

theorem scans_notEqual : (plain .notEqual "<>").Scans :=
  ⟨⟨'<', ['>'], rfl, fun _ _ => rfl⟩, rfl, rfl⟩

theorem scans_greaterEqual : (plain .greaterEqual ">=").Scans :=
  ⟨⟨'>', ['='], rfl, fun _ _ => rfl⟩, rfl, rfl⟩

end Word

/-! ### Texts of words -/

/-- The blanks within a line. -/
def Text.isSpace (c : Char) : Bool := c = ' ' || c = '\t' || c = '\r'

theorem piece_of_isSpace {c : Char} (h : Text.isSpace c = true) (rest : List Char) :
    piece c rest = .blank 0 := by
  simp only [Text.isSpace, Bool.or_eq_true, decide_eq_true_eq] at h
  rcases h with (rfl | rfl) | rfl <;> rfl

/-- A text consists of words: before and after each of them there may be spaces, and there are where
it would not end otherwise. -/
inductive Spelling : List Word → List Char → Prop
  | done {spaces : List Char} (blank : ∀ c ∈ spaces, Text.isSpace c = true) : Spelling [] spaces
  | word {spaces : List Char} (blank : ∀ c ∈ spaces, Text.isSpace c = true) {w : Word}
      {ws : List Word} {cs : List Char} (ends : w.kind.EndsBefore cs) (rest : Spelling ws cs) :
      Spelling (w :: ws) (spaces ++ (w.text.toList ++ cs))

namespace Spelling

variable {ws : List Word} {cs : List Char}

theorem endsBefore_space (kind : TokenKind) (cs : List Char) : kind.EndsBefore (' ' :: cs) := by
  rintro c ⟨⟩
  cases kind <;> rfl

/-- One more space in front. -/
theorem space (h : Spelling ws cs) : Spelling ws (' ' :: cs) := by
  have hspace {spaces : List Char} (blank : ∀ c ∈ spaces, Text.isSpace c = true) :
      ∀ c ∈ ' ' :: spaces, Text.isSpace c = true := List.forall_mem_cons.2 ⟨rfl, blank⟩
  cases h with
  | done blank => exact .done (hspace blank)
  | word blank ends rest => exact .word (hspace blank) ends rest

/-- A word in front. -/
theorem cons {w : Word} (h : Spelling ws cs) (ends : w.kind.EndsBefore cs) :
    Spelling (w :: ws) (w.text.toList ++ cs) :=
  have hnone : ∀ c ∈ ([] : List Char), Text.isSpace c = true := by simp
  .word hnone ends h

/-- Words with a space between each two of them. -/
theorem spaced (ws : List Word) : Spelling ws (" ".intercalate (ws.map Word.text)).toList := by
  induction ws with
  | nil => exact .done (by simp)
  | cons w ws ih =>
    cases ws with
    | nil =>
      have hnone : ∀ c ∈ ([] : List Char), Text.isSpace c = true := by simp
      have hword : Spelling [w] (w.text.toList ++ []) :=
        cons (.done hnone) (by simp [TokenKind.EndsBefore])
      simpa using hword
    | cons w' ws =>
      have hword := cons (w := w) ih.space (endsBefore_space _ _)
      simpa [String.intercalate_cons_cons] using hword

theorem scanFrom_spaces {spaces : List Char} (h : ∀ c ∈ spaces, Text.isSpace c = true)
    (p : Position) (cs : List Char) :
    scanFrom p (spaces ++ cs) = scanFrom ⟨p.line, p.column + spaces.length⟩ cs := by
  induction spaces generalizing p with
  | nil => rfl
  | cons c spaces ih =>
    rw [List.cons_append, scanFrom_cons, piece_of_isSpace (h c (.head _))]
    simp only [List.drop_zero]
    rw [ih fun d hd => h d (.tail _ hd)]
    simp only [List.length_cons]
    congr 2
    omega

/-- The words of a text are what it is scanned into, on one line. -/
theorem scanFrom (h : Spelling ws cs) (hws : ∀ w ∈ ws, w.Scans) (p : Position) :
    ∃ ts column,
      LineBasic.scanFrom p cs = ⟨ts ++ [⟨.finish, "", p.line, column, .nothing⟩], p.line, none⟩ ∧
      ts.map Token.word = ws ∧ Tokens.OnLine p.line ts := by
  induction h generalizing p with
  | @done spaces blank =>
    refine ⟨[], p.column + spaces.length, ?_, rfl, by simp [Tokens.OnLine]⟩
    have hspaces := scanFrom_spaces blank p []
    rw [List.append_nil] at hspaces
    rw [hspaces, scanFrom_nil]
    rfl
  | @word spaces blank w ws cs ends rest ih =>
    obtain ⟨⟨c, text, htext, hpiece⟩, hlexeme, hline⟩ := hws w (.head _)
    have hkind : w.kind ≠ .newline := by
      intro hnew
      rw [hnew] at hline
      cases hline
    obtain ⟨ts, column, hscan, hwords, honline⟩ := ih (fun v hv => hws v (.tail _ hv))
      (Position.after ⟨p.line, p.column + spaces.length⟩ w.kind (text.length + 1))
    have hafter : (Position.after ⟨p.line, p.column + spaces.length⟩ w.kind
        (text.length + 1)).line = p.line := by
      rw [Position.after, if_neg hkind]
    rw [hafter] at hscan honline
    refine ⟨⟨w.kind, w.text, p.line, p.column + spaces.length, w.value⟩ :: ts, column, ?_, ?_, ?_⟩
    · rw [scanFrom_spaces blank, htext, List.cons_append, scanFrom_cons, hpiece cs ends]
      simp only [List.drop_left, List.take_left]
      rw [hscan, ← htext, hlexeme]
      rfl
    · rw [List.map_cons, hwords]
      rfl
    · intro t ht
      rcases List.mem_cons.1 ht with rfl | ht
      · exact ⟨hline, rfl⟩
      · exact honline t ht

end Spelling
end LineBasic
