import LineBasic.Proofs.Grammar
import LineBasic.Token.Scan

/-!
# Scanning line by line

No piece of a text reaches over the end of a line. So the tokens of a text are the tokens of its
lines, each line scanned by itself.

* `Piece.Sound` : what every piece keeps to.
* `piece_of_isNameStart` : where a name can start, a name or a reserved word stands.
* `scanFrom_worded` : the text of a scanned name is a word.
* `scanFrom_alike` : where a text starts makes no difference but for the places of its tokens.
* `scanFrom_line` : a line without its end, and whatever comes after it.
-/

namespace LineBasic

/-! ### The ends of lines -/

namespace Text

/-- Nothing, or a text that starts with a newline. -/
def AtLineEnd (cs : List Char) : Prop := ∀ c ∈ cs.head?, c = '\n'

theorem atLineEnd_nil : AtLineEnd [] := by simp [AtLineEnd]

theorem atLineEnd_newline (cs : List Char) : AtLineEnd ('\n' :: cs) := by simp [AtLineEnd]

theorem takeWhile_append_atLineEnd {f : Char → Bool} {rest : List Char} (hf : f '\n' = false)
    (hr : AtLineEnd rest) (l : List Char) : (l ++ rest).takeWhile f = l.takeWhile f := by
  induction l with
  | nil =>
    cases rest with
    | nil => rfl
    | cons c cs => simp [hr c rfl, hf]
  | cons c l ih => simp [List.takeWhile_cons, ih]

theorem drop_takeWhile_append {f : Char → Bool} {l rest : List Char} :
    (l ++ rest).drop (l.takeWhile f).length = l.drop (l.takeWhile f).length ++ rest :=
  List.drop_append_of_le_length (List.takeWhile_sublist f).length_le

end Text

/-! ### Pieces -/

namespace Piece

open Text

variable {rest : List Char}

theorem string_append (hr : AtLineEnd rest) (l : List Char) : string (l ++ rest) = string l := by
  have hbody : (l ++ rest).takeWhile (fun c => c ≠ quote && c ≠ '\n') =
      l.takeWhile fun c => c ≠ quote && c ≠ '\n' := takeWhile_append_atLineEnd (by decide) hr l
  simp only [string, hbody, drop_takeWhile_append]
  cases l.drop (l.takeWhile fun c => c ≠ quote && c ≠ '\n').length with
  | cons c cs => rfl
  | nil =>
    cases rest with
    | nil => rfl
    | cons c cs =>
      obtain rfl := hr c rfl
      rfl

theorem number_append (hr : AtLineEnd rest) (c : Char) (l : List Char) :
    number c (l ++ rest) = number c l := by
  simp only [number, takeWhile_append_atLineEnd (show Text.isDigit '\n' = false by decide) hr,
    drop_takeWhile_append]
  cases l.drop (l.takeWhile Text.isDigit).length with
  | cons d ds =>
    by_cases hd : d = '.'
    · subst hd
      simp [takeWhile_append_atLineEnd (show Text.isDigit '\n' = false by decide) hr]
    · simp [hd]
  | nil =>
    cases rest with
    | nil => rfl
    | cons d ds =>
      obtain rfl := hr d rfl
      rfl

theorem name_append (hr : AtLineEnd rest) (c : Char) (l : List Char) :
    name c (l ++ rest) = name c l := by
  simp only [name, takeWhile_append_atLineEnd (show Text.isNamePart '\n' = false by decide) hr]

theorem lessSign_append (hr : AtLineEnd rest) (l : List Char) :
    lessSign (l ++ rest) = lessSign l := by
  cases l with
  | cons c cs =>
    by_cases heq : c = '='
    · subst heq; rfl
    · by_cases hgt : c = '>'
      · subst hgt; rfl
      · simp [lessSign, heq, hgt]
  | nil =>
    cases rest with
    | nil => rfl
    | cons c cs =>
      obtain rfl := hr c rfl
      rfl

theorem greaterSign_append (hr : AtLineEnd rest) (l : List Char) :
    greaterSign (l ++ rest) = greaterSign l := by
  cases l with
  | cons c cs =>
    by_cases heq : c = '='
    · subst heq; rfl
    · simp [greaterSign, heq]
  | nil =>
    cases rest with
    | nil => rfl
    | cons c cs =>
      obtain rfl := hr c rfl
      rfl

/-- What the piece at the start of `c :: rest` keeps to: it does not reach over the end of the text,
it ends a line only if it is a newline, and as a name it is a word. -/
def Sound (c : Char) (rest : List Char) : Piece → Prop
  | blank n => n ≤ rest.length
  | token kind n _ => n ≤ rest.length ∧ (kind.endsLine = true → c = '\n') ∧
      (kind = .name → Text.isWord (String.ofList (c :: rest.take n)) = true)
  | fault _ => True

theorem sound_plain {c : Char} {rest : List Char} {kind : TokenKind} {n : Nat}
    (hn : n ≤ rest.length) (hk : kind.endsLine = false) (hname : kind ≠ .name) :
    (plain kind n).Sound c rest := by
  refine ⟨hn, ?_, fun h => absurd h hname⟩
  simp [hk]

theorem string_sound (c : Char) (rest : List Char) : (string rest).Sound c rest := by
  simp only [string]
  split
  · next d ds hdrop =>
    have hlen : 0 < (rest.drop (rest.takeWhile fun c => c ≠ quote && c ≠ '\n').length).length := by
      rw [hdrop]; simp
    rw [List.length_drop] at hlen
    split
    · exact ⟨by omega, by simp [TokenKind.endsLine], by simp⟩
    · trivial
  · trivial

theorem number_sound (c : Char) (rest : List Char) : (number c rest).Sound c rest := by
  have hwhole : (rest.takeWhile Text.isDigit).length ≤ rest.length :=
    (List.takeWhile_sublist _).length_le
  simp only [number]
  split
  · next r hdrop =>
    have hlen := congrArg List.length hdrop
    have hfraction : (r.takeWhile Text.isDigit).length ≤ r.length :=
      (List.takeWhile_sublist _).length_le
    simp only [List.length_drop, List.length_cons] at hlen
    exact ⟨by omega, by simp [TokenKind.endsLine], by simp⟩
  · split
    · exact ⟨hwhole, by simp [TokenKind.endsLine], by simp⟩
    · trivial

theorem name_sound {c : Char} (hc : Text.isNameStart c = true) (rest : List Char) :
    (name c rest).Sound c rest := by
  have hmore : (rest.takeWhile Text.isNamePart).length ≤ rest.length :=
    (List.takeWhile_sublist _).length_le
  have hpart : ∀ d ∈ rest.takeWhile Text.isNamePart, Text.isNamePart d = true :=
    List.all_eq_true.1 List.all_takeWhile
  have htake : rest.take (rest.takeWhile Text.isNamePart).length = rest.takeWhile Text.isNamePart :=
    (List.prefix_iff_eq_take.1 (List.takeWhile_prefix _)).symm
  simp only [name]
  split
  · exact sound_plain hmore rfl (by simp)
  · refine ⟨hmore, by simp [TokenKind.endsLine], fun _ => ?_⟩
    simp only [Text.isWord, String.toList_ofList, htake, List.all_cons, List.all_eq_true,
      Bool.and_eq_true]
    exact ⟨by simp [Text.isNamePart, hc], hpart⟩

theorem lessSign_sound (c : Char) (rest : List Char) : (lessSign rest).Sound c rest := by
  unfold lessSign
  split <;> exact sound_plain (by simp) rfl (by simp)

theorem greaterSign_sound (c : Char) (rest : List Char) : (greaterSign rest).Sound c rest := by
  unfold greaterSign
  split <;> exact sound_plain (by simp) rfl (by simp)

/-- The signs of one character, with their kinds. -/
def signs : List (Char × TokenKind) :=
  [('(', .leftParen), (')', .rightParen), ('\x7b', .leftBrace), ('\x7d', .rightBrace),
    (',', .comma), ('-', .minus), ('+', .plus), ('*', .star), ('/', .slash), ('\\', .backslash),
      ('^', .caret), ('=', .equal), ('\n', .newline)]

theorem mem_signs {c : Char} {kind : TokenKind} : sign? c = some kind → (c, kind) ∈ signs := by
  have hstep {d : Char} {k : TokenKind} {others : Option TokenKind} {more : List (Char × TokenKind)}
      (hothers : others = some kind → (c, kind) ∈ more) :
      (if c = d then some k else others) = some kind → (c, kind) ∈ (d, k) :: more := by
    intro h
    by_cases hc : c = d
    · rw [if_pos hc] at h
      rw [hc, Option.some.inj h]
      exact .head _
    · rw [if_neg hc] at h
      exact .tail _ (hothers h)
  unfold sign? signs
  iterate 13 refine hstep ?_
  nofun

/-- A sign of one character is no name, and ends a line only if it is a newline. -/
theorem sign?_spec {c : Char} :
    ∀ kind ∈ sign? c, kind ≠ .name ∧ (kind.endsLine = true → c = '\n') := by
  intro kind h
  have hall : ∀ p ∈ signs, p.2 ≠ .name ∧ (p.2.endsLine = true → p.1 = '\n') := by decide
  exact hall _ (mem_signs h)

end Piece

open Text in
/-- What stands at the start of a line does not depend on what comes after the line. -/
theorem piece_append {rest : List Char} (hr : AtLineEnd rest) (c : Char) (l : List Char) :
    piece c (l ++ rest) = piece c l := by
  have hcomment : (l ++ rest).takeWhile (fun d => d ≠ '\n') = l.takeWhile fun d => d ≠ '\n' :=
    takeWhile_append_atLineEnd (by decide) hr l
  simp only [piece, Piece.lessSign_append hr, Piece.greaterSign_append hr, hcomment,
    Piece.string_append hr, Piece.number_append hr, Piece.name_append hr]

theorem piece_sound (c : Char) (rest : List Char) : (piece c rest).Sound c rest := by
  unfold piece
  split
  · next kind hsign =>
    obtain ⟨hname, hend⟩ := Piece.sign?_spec kind hsign
    exact ⟨Nat.zero_le _, hend, fun h => absurd h hname⟩
  · split
    · exact Piece.lessSign_sound c rest
    · split
      · exact Piece.greaterSign_sound c rest
      · split
        · exact (List.takeWhile_sublist _).length_le
        · split
          · exact Piece.string_sound c rest
          · split
            · exact Nat.zero_le _
            · split
              · exact Piece.number_sound c rest
              · split
                · next hstart => exact Piece.name_sound hstart rest
                · trivial

/-! ### Names -/

/-- A text that is one name, and no reserved word. -/
def Text.isName (s : String) : Bool :=
  match s.toList with
  | [] => false
  | c :: cs => isNameStart c && cs.all isNamePart && (Keyword.ofText? (upperCase s)).isNone

theorem Text.isDigit_of_isNameStart {c : Char} (h : isNameStart c = true) : isDigit c = false := by
  rw [Bool.eq_false_iff]
  intro hdigit
  simp only [isDigit, Bool.and_eq_true, decide_eq_true_eq] at hdigit
  have hd : 48 ≤ c.val.toNat ∧ c.val.toNat ≤ 57 := hdigit
  simp only [isNameStart, isLetter, Bool.or_eq_true, Bool.and_eq_true, decide_eq_true_eq] at h
  rcases h with ((⟨hlow, -⟩ | ⟨hlow, -⟩) | rfl) | rfl
  · have hlow : 97 ≤ c.val.toNat := hlow
    omega
  · have hlow : 65 ≤ c.val.toNat := hlow
    omega
  · exact absurd hd (by decide)
  · exact absurd hd (by decide)

theorem Text.ne_of_isNameStart {c d : Char} (h : isNameStart c = true)
    (hd : isNameStart d = false) : c ≠ d := by
  rintro rfl
  simp [hd] at h

theorem Piece.sign?_of_isNameStart {c : Char} (h : Text.isNameStart c = true) : sign? c = none := by
  simp (disch := decide) [sign?, Text.ne_of_isNameStart h]

/-- A name stands where one can start. -/
theorem piece_of_isNameStart {c : Char} (h : Text.isNameStart c = true) (rest : List Char) :
    piece c rest = Piece.name c rest := by
  have hdigit := Text.isDigit_of_isNameStart h
  simp (disch := decide) [piece, Piece.sign?_of_isNameStart h, Text.ne_of_isNameStart h, hdigit, h]

/-! ### Scans -/

theorem scanFrom_nil (p : Position) :
    scanFrom p [] = ⟨[⟨.finish, "", p.line, p.column, .nothing⟩], p.line, none⟩ := by
  rw [scanFrom]

theorem scanFrom_cons (p : Position) (c : Char) (rest : List Char) :
    scanFrom p (c :: rest) =
      match piece c rest with
      | .blank n => scanFrom ⟨p.line, p.column + n + 1⟩ (rest.drop n)
      | .token kind n value =>
        (scanFrom (p.after kind (n + 1)) (rest.drop n)).cons
          ⟨kind, lexemeOf kind (c :: rest.take n), p.line, p.column, value⟩
      | .fault f => ⟨[], p.line, some ⟨f, p.line, p.column⟩⟩ := by
  cases hp : piece c rest <;> rw [scanFrom, hp]

theorem scanFrom_newline (p : Position) (rest : List Char) :
    scanFrom p ('\n' :: rest) =
      (scanFrom ⟨p.line + 1, 0⟩ rest).cons ⟨.newline, "\n", p.line, p.column, .nothing⟩ := by
  rw [scanFrom_cons]
  rfl

/-- The text of a scanned name is a word. -/
theorem scanFrom_worded (p : Position) (cs : List Char) : Tokens.Worded (scanFrom p cs).tokens := by
  fun_induction scanFrom p cs with
  | case1 p =>
    intro t ht hname
    rw [List.mem_singleton.1 ht] at hname
    cases hname
  | case2 p c rest n hpiece ih => exact ih
  | case3 p c rest kind n value hpiece ih =>
    intro t ht hname
    rcases List.mem_cons.1 ht with rfl | ht
    · have hsound := piece_sound c rest
      rw [hpiece] at hsound
      obtain rfl : kind = .name := hname
      exact Text.isWord_upperCase (hsound.2.2 rfl)
    · exact ih t ht hname
  | case4 p c rest f hpiece => simp [Tokens.Worded]

/-- Where a text starts makes no difference but for the places of its tokens. -/
theorem scanFrom_alike (p q : Position) (cs : List Char) :
    Tokens.Alike (scanFrom p cs).tokens (scanFrom q cs).tokens ∧
      ((scanFrom p cs).error = none ↔ (scanFrom q cs).error = none) := by
  fun_induction scanFrom p cs generalizing q with
  | case1 p =>
    rw [scanFrom_nil]
    exact ⟨.cons (.inr ⟨rfl, rfl, rfl⟩) .nil, Iff.rfl⟩
  | case2 p c rest n hpiece ih =>
    simp only [scanFrom_cons q, hpiece]
    exact ih _
  | case3 p c rest kind n value hpiece ih =>
    simp only [scanFrom_cons q, hpiece]
    exact ⟨.cons (.inr ⟨rfl, rfl, rfl⟩) (ih _).1, (ih _).2⟩
  | case4 p c rest f hpiece =>
    simp only [scanFrom_cons q, hpiece]
    exact ⟨.nil, by simp⟩

/-- A scan with tokens in front. -/
def Scan.prepend (ts : List Token) (s : Scan) : Scan := { s with tokens := ts ++ s.tokens }

/-- The tokens of one line: none of them ends a line, and all stand on it. -/
def Tokens.OnLine (line : Nat) (ts : List Token) : Prop :=
  ∀ t ∈ ts, t.kind.endsLine = false ∧ t.line = line

open Text in
/-- A line without its end is scanned in the same way whatever comes after the line. -/
theorem scanFrom_line (p : Position) (l : List Char) (hl : '\n' ∉ l) :
    (∃ ts q, q.line = p.line ∧ Tokens.OnLine p.line ts ∧
      ∀ rest, AtLineEnd rest → scanFrom p (l ++ rest) = (scanFrom q rest).prepend ts) ∨
    ∃ ts e, ∀ rest, AtLineEnd rest → scanFrom p (l ++ rest) = ⟨ts, p.line, some e⟩ := by
  -- along the scan of the line alone: each of its pieces is the same in front of `rest`
  fun_induction scanFrom p l with
  | case1 p => exact .inl ⟨[], p, rfl, by simp [Tokens.OnLine], fun rest _ => rfl⟩
  | case2 p c l n hpiece ih =>
    have hsound := piece_sound c l
    rw [hpiece] at hsound
    have hnl : '\n' ∉ l.drop n := fun h => hl (.tail _ (List.mem_of_mem_drop h))
    have hstep (rest : List Char) (hr : AtLineEnd rest) : scanFrom p (c :: l ++ rest) =
        scanFrom ⟨p.line, p.column + n + 1⟩ (l.drop n ++ rest) := by
      rw [List.cons_append, scanFrom_cons, piece_append hr, hpiece,
        ← List.drop_append_of_le_length hsound]
    obtain ⟨ts, q, hq, hts, hscan⟩ | ⟨ts, e, hscan⟩ := ih hnl
    · exact .inl ⟨ts, q, hq, hts, fun rest hr => (hstep rest hr).trans (hscan rest hr)⟩
    · exact .inr ⟨ts, e, fun rest hr => (hstep rest hr).trans (hscan rest hr)⟩
  | case3 p c l kind n value hpiece ih =>
    have hsound := piece_sound c l
    rw [hpiece] at hsound
    have hnl : '\n' ∉ l.drop n := fun h => hl (.tail _ (List.mem_of_mem_drop h))
    -- the line has no newline, so no token of it ends a line
    have hend : kind.endsLine = false := by
      by_contra h
      exact hl (hsound.2.1 (by simpa using h) ▸ .head _)
    have hkind : kind ≠ .newline := by
      rintro rfl
      simp [TokenKind.endsLine] at hend
    have hline : (p.after kind (n + 1)).line = p.line := by simp [Position.after, hkind]
    let t : Token := ⟨kind, lexemeOf kind (c :: l.take n), p.line, p.column, value⟩
    have hstep (rest : List Char) (hr : AtLineEnd rest) : scanFrom p (c :: l ++ rest) =
        (scanFrom (p.after kind (n + 1)) (l.drop n ++ rest)).cons t := by
      rw [List.cons_append, scanFrom_cons, piece_append hr, hpiece,
        ← List.drop_append_of_le_length hsound.1]
      simp only [List.take_append_of_le_length hsound.1]
      rfl
    rw [hline] at ih
    obtain ⟨ts, q, hq, hts, hscan⟩ | ⟨ts, e, hscan⟩ := ih hnl
    · refine .inl ⟨t :: ts, q, hq, ?_, fun rest hr => ?_⟩
      · intro u hu
        rcases List.mem_cons.1 hu with rfl | hu
        · exact ⟨hend, rfl⟩
        · exact hts u hu
      · rw [hstep rest hr, hscan rest hr]
        rfl
    · refine .inr ⟨t :: ts, e, fun rest hr => ?_⟩
      rw [hstep rest hr, hscan rest hr]
      rfl
  | case4 p c l f hpiece =>
    refine .inr ⟨[], ⟨f, p.line, p.column⟩, fun rest hr => ?_⟩
    rw [List.cons_append, scanFrom_cons, piece_append hr, hpiece]

end LineBasic
