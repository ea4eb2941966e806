import LineBasic.Session
import LineBasic.Proofs.Lexemes

/-!
# Capital and small letters

The case of a letter counts inside string literals only. Where these are can be told from the
quotes, the marks of comments and the newlines of a text, and none of them is a letter: two
texts that differ in the case of letters elsewhere have their literals, their comments and their
tokens at the same places.

* `Text.Region` : code, comments and literals. `Text.InLiteral` : the places inside string literals.
* `Text.Recased` : texts that differ in the case of letters outside string literals only.
* `Text.CaseBlind` : what does not tell the cases of letters apart.
* `Lexeme.recased`, `LexFault.StandsAt.recased` : so do not the kinds of tokens and of faults.
* `scanFrom_recased` : the scans of both texts go along together.
* `case_is_immaterial` : scanning, reading and running both texts is the same.
-/

namespace LineBasic

/-! ### Where letters stand -/

namespace Text

/-- What a place in a text belongs to. -/
inductive Region where
  | code | comment | literal
  deriving DecidableEq, Repr

/-- The region that comes after a character. A literal without a closing
quote ends with its line. -/
def Region.next : Region → Char → Region
  | code, c => if c = Piece.quote then literal else if c = Piece.commentMark then comment else code
  | comment, c => if c = '\n' then code else comment
  | literal, c => if c = Piece.quote ∨ c = '\n' then code else literal

/-- The region at the end of a text. -/
def regionAfter (cs : List Char) : Region := cs.foldl Region.next .code

/-- A place between the two quotes of a string literal, which are on one line. -/
def InLiteral (cs : List Char) (i : Nat) : Prop :=
  ∃ k < i, ∃ j < cs.length, i < j ∧ regionAfter (cs.take k) = .code ∧
    cs[k]? = some Piece.quote ∧ cs[j]? = some Piece.quote ∧
    ∀ c ∈ (cs.take j).drop (k + 1), c ≠ Piece.quote ∧ c ≠ '\n'

instance (cs : List Char) (i : Nat) : Decidable (InLiteral cs i) :=
  -- found by itself, the instance would go through all characters there are
  letI (l : List Char) : Decidable (∀ c ∈ l, c ≠ Piece.quote ∧ c ≠ '\n') := List.decidableBAll ..
  inferInstanceAs (Decidable (∃ k < i, ∃ j < cs.length, i < j ∧ regionAfter (cs.take k) = .code ∧
    cs[k]? = some Piece.quote ∧ cs[j]? = some Piece.quote ∧
    ∀ c ∈ (cs.take j).drop (k + 1), c ≠ Piece.quote ∧ c ≠ '\n'))

/-- Two texts differ in nothing but the case of letters, and in string
literals they do not differ. -/
structure Recased (cs ds : List Char) : Prop where
  letters : cs.map Char.toUpper = ds.map Char.toUpper
  literals : ∀ i < cs.length, InLiteral cs i → cs[i]? = ds[i]?

instance (cs ds : List Char) : Decidable (Recased cs ds) :=
  decidable_of_iff (cs.map Char.toUpper = ds.map Char.toUpper ∧
    ∀ i < cs.length, InLiteral cs i → cs[i]? = ds[i]?) ⟨fun h => ⟨h.1, h.2⟩, fun h => ⟨h.1, h.2⟩⟩

/-- Code goes on after a region: it was code, or a comment whose line ends. -/
def Region.Resumes (r : Region) (rest : List Char) : Prop :=
  r = .code ∨ r = .comment ∧ AtLineEnd rest

/-- A quote that stands in code does so after such a region as well. -/
theorem Region.Resumes.foldl_eq {r : Region} {rest : List Char} (h : r.Resumes rest) {k : Nat}
    (hk : rest[k]? = some Piece.quote) :
    (rest.take k).foldl Region.next r = regionAfter (rest.take k) := by
  rcases h with rfl | ⟨rfl, hend⟩
  · rfl
  · cases rest with
    | nil => simp at hk
    | cons c cs =>
      obtain rfl := hend c rfl
      cases k with
      | zero => exact absurd (Option.some.inj hk) (by decide)
      | succ k => rfl

theorem foldl_next_code {l : List Char} (h : ∀ c ∈ l, c ≠ Piece.quote ∧ c ≠ Piece.commentMark) :
    l.foldl Region.next .code = .code := by
  induction l with
  | nil => rfl
  | cons c l ih =>
    obtain ⟨hc, hl⟩ := List.forall_mem_cons.1 h
    rw [List.foldl_cons, Region.next, if_neg hc.1, if_neg hc.2, ih hl]

theorem foldl_next_comment {l : List Char} (h : '\n' ∉ l) :
    l.foldl Region.next .comment = .comment := by
  induction l with
  | nil => rfl
  | cons c l ih =>
    obtain ⟨hc, hl⟩ := List.forall_mem_cons.1 fun d hd => (ne_of_mem_of_not_mem hd h)
    rw [List.foldl_cons, Region.next, if_neg hc, ih fun hmem => hl _ hmem rfl]

theorem foldl_next_literal {l : List Char} (h : ∀ c ∈ l, c ≠ Piece.quote ∧ c ≠ '\n') :
    l.foldl Region.next .literal = .literal := by
  induction l with
  | nil => rfl
  | cons c l ih =>
    obtain ⟨hc, hl⟩ := List.forall_mem_cons.1 h
    rw [List.foldl_cons, Region.next, if_neg (not_or.2 hc), ih hl]

namespace Recased

variable {front front' cs ds : List Char}

/-- What comes after a part of both texts, if code goes on there. -/
theorem suffix (h : Recased (front ++ cs) (front' ++ ds)) (hlength : front.length = front'.length)
    (resumes : (regionAfter front).Resumes cs) : Recased cs ds := by
  obtain ⟨hletters, hliterals⟩ := h
  rw [List.map_append, List.map_append] at hletters
  refine ⟨(List.append_inj hletters (by simpa using hlength)).2, ?_⟩
  rintro i hi ⟨k, hk, j, hj, hij, hcode, hopen, hclose, hinside⟩
  have hliteral : InLiteral (front ++ cs) (front.length + i) := by
    refine ⟨front.length + k, by omega, front.length + j, by simpa using hj, by omega,
      ?_, ?_, ?_, ?_⟩
    · rw [List.take_length_add_append, regionAfter, List.foldl_append]
      exact (resumes.foldl_eq hopen).trans hcode
    · rw [List.getElem?_append_right (Nat.le_add_right _ _), Nat.add_sub_cancel_left, hopen]
    · rw [List.getElem?_append_right (Nat.le_add_right _ _), Nat.add_sub_cancel_left, hclose]
    · rwa [List.take_length_add_append, Nat.add_assoc, List.drop_length_add_append]
  have hsame := hliterals (front.length + i) (by simpa using hi) hliteral
  rwa [List.getElem?_append_right (Nat.le_add_right _ _), hlength,
    List.getElem?_append_right (Nat.le_add_right _ _), ← hlength, Nat.add_sub_cancel_left] at hsame

end Recased

/-! ### What does not tell cases apart -/

/-- A character is read in the same way in upper case. -/
def CaseBlind {α : Type} (f : Char → α) : Prop := ∀ c, f c.toUpper = f c

/-- What is the same of all letters. -/
theorem caseBlind_of_isLetter {α : Type} {f : Char → α} (a : α)
    (hf : ∀ c, isLetter c = true → f c = a) :
    CaseBlind f := by
  intro c
  rcases toUpper_cases c with hc | ⟨hletter, hc⟩
  · rw [hc]
  · rw [hf c hletter, hf _ (isLetter_of_capital hc)]

/-- Only letters have cases. -/
theorem eq_of_toUpper_eq {c d : Char} (h : c.toUpper = d.toUpper)
    (hc : isLetter c = false) : c = d := by
  have hcapital {e : Char} (he : 'A' ≤ e.toUpper ∧ e.toUpper ≤ 'Z') (heq : c.toUpper = e.toUpper)
      (hkeep : c.toUpper = c) : False := by
    rw [← hkeep, heq, isLetter_of_capital he] at hc
    cases hc
  rcases toUpper_cases c with hkeep | ⟨hletter, -⟩
  · rcases toUpper_cases d with hd | ⟨-, hd⟩
    · rw [← hkeep, h, hd]
    · exact (hcapital hd h hkeep).elim
  · rw [hc] at hletter
    cases hletter

theorem eq_of_map_toUpper_eq {l l' : List Char} (h : l.map Char.toUpper = l'.map Char.toUpper)
    (hl : ∀ c ∈ l, isLetter c = false) : l = l' := by
  induction l generalizing l' with
  | nil => simpa using h.symm
  | cons c l ih =>
    obtain ⟨d, l', rfl, hd, htail⟩ := List.map_eq_cons_iff.1 h.symm
    obtain ⟨hc, hl⟩ := List.forall_mem_cons.1 hl
    rw [eq_of_toUpper_eq hd.symm hc, ih htail.symm hl]

theorem not_isLetter_of_isDigit {c : Char} (h : isDigit c = true) : isLetter c = false := by
  by_contra hletter
  have hstart : isNameStart c = true := by simp [isNameStart, (Bool.not_eq_false _).mp hletter]
  rw [isDigit_of_isNameStart hstart] at h
  cases h

namespace CaseBlind

variable {α : Type} {l l' : List Char}

theorem eq_of_toUpper_eq {f : Char → α} (hf : CaseBlind f) {c d : Char}
    (h : c.toUpper = d.toUpper) :
    f c = f d := by
  rw [← hf c, h, hf d]

theorem map_eq {f : Char → α} (hf : CaseBlind f) (h : l.map Char.toUpper = l'.map Char.toUpper) :
    l.map f = l'.map f := by
  have hmap (l : List Char) : l.map f = (l.map Char.toUpper).map f := by
    rw [List.map_map]
    exact List.map_congr_left fun c _ => (hf c).symm
  rw [hmap l, h, ← hmap l']

/-- What holds of all characters of a text, holds of all of them in the other case. -/
theorem forall_mem {f : Char → Bool} (hf : CaseBlind f)
    (h : l.map Char.toUpper = l'.map Char.toUpper) (hl : ∀ c ∈ l, f c = true) :
    ∀ c ∈ l', f c = true := by
  intro c hc
  have hmem : f c ∈ l.map f := hf.map_eq h ▸ List.mem_map_of_mem hc
  obtain ⟨d, hd, heq⟩ := List.mem_map.1 hmem
  rw [← heq, hl d hd]

theorem length_takeWhile {f : Char → Bool} (hf : CaseBlind f)
    (h : l.map Char.toUpper = l'.map Char.toUpper) :
    (l.takeWhile f).length = (l'.takeWhile f).length := by
  have hlength (l : List Char) : (l.takeWhile f).length = ((l.map f).takeWhile id).length := by
    rw [List.takeWhile_map, List.length_map]
    rfl
  rw [hlength l, hf.map_eq h, ← hlength l']

end CaseBlind

theorem isNameStart_caseBlind : CaseBlind isNameStart :=
  caseBlind_of_isLetter true fun c hc => by simp [isNameStart, hc]

theorem isNamePart_caseBlind : CaseBlind isNamePart :=
  caseBlind_of_isLetter true fun c hc => by simp [isNamePart, isNameStart, hc]

/-- Comparison with a character that is no letter. -/
theorem eq_caseBlind {d : Char} (hd : isLetter d = false) : CaseBlind fun c => decide (c = d) :=
  caseBlind_of_isLetter false fun c hc => decide_eq_false fun heq => by simp [heq, hd] at hc

theorem goesOn_caseBlind (kind : TokenKind) : CaseBlind kind.goesOn := by
  have hno {d : Char} (hd : isLetter d = false) {c : Char} (hc : isLetter c = true) : c ≠ d := by
    rintro rfl
    rw [hd] at hc
    cases hc
  have hdigit {c : Char} (hc : isLetter c = true) : isDigit c = false :=
    Bool.eq_false_iff.2 fun h => by simp [not_isLetter_of_isDigit h] at hc
  cases kind with
  | name => exact isNamePart_caseBlind
  | word k => exact isNamePart_caseBlind
  | integer =>
    exact caseBlind_of_isLetter false fun c hc => by
      simp [TokenKind.goesOn, hdigit hc, hno (d := '.') (by decide) hc]
  | decimal => exact caseBlind_of_isLetter false fun c hc => by simp [TokenKind.goesOn, hdigit hc]
  | less =>
    exact caseBlind_of_isLetter false fun c hc => by
      simp [TokenKind.goesOn, hno (d := '=') (by decide) hc, hno (d := '>') (by decide) hc]
  | greater =>
    exact caseBlind_of_isLetter false fun c hc => by
      simp [TokenKind.goesOn, hno (d := '=') (by decide) hc]
  | _ => exact fun c => rfl

end Text

open Text

/-! ### Lexemes and faults -/

section Recasing

variable {kind : TokenKind} {slice slice' rest rest' : List Char} {value : Literal}

theorem TokenKind.EndsBefore.recased (h : kind.EndsBefore rest)
    (letters : rest.map Char.toUpper = rest'.map Char.toUpper) : kind.EndsBefore rest' := by
  intro d hd
  have hhead := congrArg List.head? ((goesOn_caseBlind kind).map_eq letters)
  rw [List.head?_map, List.head?_map, hd] at hhead
  obtain ⟨c, hc, heq⟩ := Option.map_eq_some_iff.1 hhead
  rw [← heq, h c hc]

theorem Text.AtLineEnd.recased (h : AtLineEnd rest)
    (letters : rest.map Char.toUpper = rest'.map Char.toUpper) : AtLineEnd rest' := by
  intro d hd
  have hhead := congrArg List.head? letters
  rw [List.head?_map, List.head?_map, hd] at hhead
  obtain ⟨c, hc, heq⟩ := Option.map_eq_some_iff.1 hhead
  obtain rfl := h c hc
  exact (eq_of_toUpper_eq heq (by decide)).symm

/-- A sign is no letter. -/
theorem Piece.not_isLetter_of_sign? {c : Char} (h : Piece.sign? c = some kind) :
    isLetter c = false := by
  by_contra hletter
  have hstart : isNameStart c = true := by simp [isNameStart, (Bool.not_eq_false _).mp hletter]
  rw [Piece.sign?_of_isNameStart hstart] at h
  cases h

/-- A lexeme in the other case is a lexeme of the same kind, which is shown in the same way. Only in
strings the case counts. -/
theorem Lexeme.recased (h : Lexeme kind slice value)
    (letters : slice.map Char.toUpper = slice'.map Char.toUpper)
    (literal : kind = .text → slice = slice') :
    Lexeme kind slice' value ∧ lexemeOf kind slice = lexemeOf kind slice' := by
  have hplain (hslice : ∀ c ∈ slice, isLetter c = false) :
      Lexeme kind slice' value ∧ lexemeOf kind slice = lexemeOf kind slice' := by
    obtain rfl := eq_of_map_toUpper_eq letters hslice
    exact ⟨h, rfl⟩
  have hsign (hslice : (slice.all fun c => !isLetter c) = true) :
      Lexeme kind slice' value ∧ lexemeOf kind slice = lexemeOf kind slice' :=
    hplain fun c hc => by simpa using List.all_eq_true.1 hslice c hc
  have hdigits {digits : List Char} (all : ∀ c ∈ digits, isDigit c = true) :
      ∀ c ∈ digits, isLetter c = false := fun c hc => not_isLetter_of_isDigit (all c hc)
  have hupper : upperCase (String.ofList slice) = upperCase (String.ofList slice') := by
    simp [upperCase, letters]
  cases h with
  | sign h => exact hplain (List.forall_mem_singleton.2 (Piece.not_isLetter_of_sign? h))
  | less => exact hsign rfl
  | lessEqual => exact hsign rfl
  | notEqual => exact hsign rfl
  | greater => exact hsign rfl
  | greaterEqual => exact hsign rfl
  | text inside =>
    obtain rfl := literal rfl
    exact ⟨.text inside, rfl⟩
  | integer nonempty all => exact hplain (hdigits all)
  | decimal nonempty all all' =>
    refine hplain
      (List.forall_mem_append.2 ⟨hdigits all, List.forall_mem_cons.2 ⟨by decide, hdigits all'⟩⟩)
  | keyword start parts reserved =>
    obtain ⟨d, ds, rfl, hd, hds⟩ := List.map_eq_cons_iff.1 letters.symm
    exact ⟨.keyword (isNameStart_caseBlind.eq_of_toUpper_eq hd ▸ start)
      (isNamePart_caseBlind.forall_mem hds.symm parts) (hupper ▸ reserved), hupper⟩
  | name start parts free =>
    obtain ⟨d, ds, rfl, hd, hds⟩ := List.map_eq_cons_iff.1 letters.symm
    exact ⟨.name (isNameStart_caseBlind.eq_of_toUpper_eq hd ▸ start)
      (isNamePart_caseBlind.forall_mem hds.symm parts) (hupper ▸ free), hupper⟩

/-- A string stands between two quotes. -/
theorem Lexeme.exists_body (h : Lexeme .text slice value) :
    ∃ body, slice = Piece.quote :: (body ++ [Piece.quote]) ∧
    ∀ c ∈ body, c ≠ Piece.quote ∧ c ≠ '\n' := by
  cases h with
  | sign hsign =>
    have hother : ∀ p ∈ Piece.signs, p.2 ≠ .text := by decide
    exact absurd rfl (hother _ (Piece.mem_signs hsign))
  | text inside => exact ⟨_, rfl, inside⟩

/-- A letter by itself is a lexeme. -/
theorem Foreign.not_isLetter {c : Char} (h : Foreign c) : isLetter c = false := by
  by_contra hletter
  have hstart : isNameStart c = true := by simp [isNameStart, (Bool.not_eq_false _).mp hletter]
  by_cases hword : ∃ k : Keyword, upperCase (String.ofList [c]) = k.text
  · obtain ⟨k, hk⟩ := hword
    exact h.lexeme _ _ _ (.keyword hstart (by simp) hk) rfl
  · exact h.lexeme _ _ _ (.name hstart (by simp) (not_exists.1 hword)) rfl

/-- The place of a fault is one in the other case, of the same fault. -/
theorem LexFault.StandsAt.recased {f : LexFault} (h : f.StandsAt slice)
    (letters : slice.map Char.toUpper = slice'.map Char.toUpper) : f.StandsAt slice' := by
  cases h with
  | illegalCharacter foreign =>
    obtain ⟨d, ds, rfl, hd, -⟩ := List.map_eq_cons_iff.1 letters.symm
    obtain rfl := eq_of_toUpper_eq hd.symm foreign.not_isLetter
    exact .illegalCharacter foreign
  | @unterminatedString body rest inside ends =>
    have hinside : CaseBlind fun c => decide (c ≠ Piece.quote ∧ c ≠ '\n') := by
      refine caseBlind_of_isLetter true fun c hc => decide_eq_true ⟨?_, ?_⟩ <;>
        (rintro rfl; cases hc)
    obtain ⟨d, ds, rfl, hd, hds⟩ := List.map_eq_cons_iff.1 letters.symm
    obtain rfl := eq_of_toUpper_eq hd.symm (by decide)
    rw [List.map_append] at hds
    obtain ⟨body', rest', rfl, hbody, hrest⟩ := List.map_eq_append_iff.1 hds
    refine .unterminatedString (fun c hc => ?_) (ends.recased hrest.symm)
    exact of_decide_eq_true
      (hinside.forall_mem hbody.symm (fun c hc => decide_eq_true (inside c hc)) c hc)
  | @invalidNumber digits rest nonempty all ends large =>
    rw [List.map_append] at letters
    obtain ⟨digits', rest', rfl, hdigits, hrest⟩ := List.map_eq_append_iff.1 letters.symm
    obtain rfl := eq_of_map_toUpper_eq hdigits.symm fun c hc => not_isLetter_of_isDigit (all c hc)
    exact .invalidNumber nonempty all (ends.recased hrest.symm) large

end Recasing

/-! ### Regions of pieces -/

/-- Code goes on after a lexeme. -/
theorem Lexeme.regionAfter_eq {kind : TokenKind} {slice : List Char} {value : Literal}
    (h : Lexeme kind slice value) : regionAfter slice = .code := by
  have hdigits {digits : List Char} (all : ∀ c ∈ digits, isDigit c = true) :
      ∀ c ∈ digits, c ≠ Piece.quote ∧ c ≠ Piece.commentMark := by
    intro c hc
    constructor <;> (rintro rfl; exact absurd (all _ hc) (by decide))
  have hname {c : Char} {cs : List Char} (start : isNameStart c = true)
      (parts : ∀ d ∈ cs, isNamePart d = true) :
        ∀ d ∈ c :: cs, d ≠ Piece.quote ∧ d ≠ Piece.commentMark := by
    have hpart : ∀ d ∈ c :: cs, isNamePart d = true :=
      List.forall_mem_cons.2 ⟨by simp [isNamePart, start], parts⟩
    intro d hd
    constructor <;> (rintro rfl; exact absurd (hpart _ hd) (by decide))
  cases h with
  | sign hsign =>
    refine foldl_next_code (List.forall_mem_singleton.2 ⟨?_, ?_⟩) <;> (rintro rfl; cases hsign)
  | less => rfl
  | lessEqual => rfl
  | notEqual => rfl
  | greater => rfl
  | greaterEqual => rfl
  | text inside =>
    rw [regionAfter, List.foldl_cons, List.foldl_append]
    show List.foldl _ (List.foldl Region.next .literal _) _ = _
    rw [foldl_next_literal inside]
    rfl
  | integer nonempty all => exact foldl_next_code (hdigits all)
  | decimal nonempty all all' =>
    exact foldl_next_code (List.forall_mem_append.2
      ⟨hdigits all, List.forall_mem_cons.2 ⟨by decide, hdigits all'⟩⟩)
  | keyword start parts => exact foldl_next_code (hname start parts)
  | name start parts => exact foldl_next_code (hname start parts)

/-- Code goes on after what stands between lexemes. -/
theorem Gap.resumes {gap rest : List Char} (h : Gap gap rest) : (regionAfter gap).Resumes rest := by
  induction h with
  | none => exact .inl rfl
  | @space c gap rest blank more ih =>
    have hnext : Region.next .code c = .code := by
      simp only [isSpace, Bool.or_eq_true, decide_eq_true_eq] at blank
      rcases blank with (rfl | rfl) | rfl <;> rfl
    rwa [regionAfter, List.foldl_cons, hnext]
  | comment inLine ends => exact .inr ⟨foldl_next_comment inLine, ends⟩

/-! ### Two scans -/

namespace Text.Recased

variable {c d : Char} {cs ds : List Char} {n : Nat}

theorem letters_tail (h : Recased (c :: cs) (d :: ds)) :
    c.toUpper = d.toUpper ∧ cs.map Char.toUpper = ds.map Char.toUpper := by
  simpa using h.letters

/-- What comes after pieces of one length. -/
theorem drop (h : Recased (c :: cs) (d :: ds))
    (resumes : (regionAfter (c :: cs.take n)).Resumes (cs.drop n)) :
    Recased (cs.drop n) (ds.drop n) := by
  have hlength : cs.length = ds.length := by simpa using congrArg List.length h.letters_tail.2
  have hcut : Recased (c :: cs.take n ++ cs.drop n) (d :: ds.take n ++ ds.drop n) := by
    simpa using h
  exact hcut.suffix (by simp [hlength]) resumes

theorem blank (h : Recased (c :: cs) (d :: ds)) (hp : piece c cs = .blank n) :
    piece d ds = .blank n ∧ Recased (cs.drop n) (ds.drop n) := by
  have hfound := piece_describes c cs
  rw [hp] at hfound
  cases hfound with
  | blank gap =>
    refine ⟨?_, h.drop gap.resumes⟩
    rw [← hp]
    cases gap with
    | space blank =>
      have hletter : isLetter c = false := by
        simp only [isSpace, Bool.or_eq_true, decide_eq_true_eq] at blank
        rcases blank with (rfl | rfl) | rfl <;> rfl
      obtain rfl := eq_of_toUpper_eq h.letters_tail.1 hletter
      rw [piece_of_isSpace blank, piece_of_isSpace blank]
    | comment =>
      obtain rfl := eq_of_toUpper_eq h.letters_tail.1 (by decide)
      have hline : CaseBlind fun e : Char => decide (e ≠ '\n') :=
        caseBlind_of_isLetter true fun e he => decide_eq_true (by rintro rfl; cases he)
      exact congrArg Piece.blank (hline.length_takeWhile h.letters_tail.2).symm

/-- A string literal is the same in both texts. -/
theorem text_eq {value : Literal} (h : Recased (c :: cs) (d :: ds))
    (lexeme : Lexeme .text (c :: cs.take n) value) : c :: cs.take n = d :: ds.take n := by
  obtain ⟨body, hslice, inside⟩ := lexeme.exists_body
  obtain ⟨rfl, hbody⟩ := List.cons.inj hslice
  obtain ⟨hd, hds⟩ := h.letters_tail
  have htake : (ds.take n).map Char.toUpper = (body ++ [Piece.quote]).map Char.toUpper := by
    rw [← hbody, List.map_take, List.map_take, hds]
  rw [List.map_append] at htake
  obtain ⟨body', last, hbody', hletters, hlast⟩ := List.map_eq_append_iff.1 htake
  obtain rfl := eq_of_map_toUpper_eq hlast.symm (List.forall_mem_singleton.2 rfl)
  have hlength : body.length = body'.length := by simpa using congrArg List.length hletters.symm
  have hcs : cs = body ++ Piece.quote :: cs.drop n := by
    rw [List.append_cons, ← hbody, List.take_append_drop]
  have hds : ds = body' ++ Piece.quote :: ds.drop n := by
    rw [List.append_cons, ← hbody', List.take_append_drop]
  have hsame : body = body' := by
    refine List.ext_getElem? fun i => ?_
    by_cases hi : i < body.length
    · -- the place after the opening quote, and after `i` more characters
      have hliteral : InLiteral (Piece.quote :: cs) (i + 1) := by
        refine ⟨0, Nat.succ_pos i, body.length + 1, ?_, by omega, rfl, rfl, ?_, ?_⟩
        · rw [hcs]
          simp
        · rw [hcs]
          simp
        · rw [hcs]
          simpa using inside
      have hplace := h.literals (i + 1) (by rw [hcs]; simp; omega) hliteral
      rw [List.getElem?_cons_succ, List.getElem?_cons_succ, hcs, hds] at hplace
      rwa [List.getElem?_append_left hi, List.getElem?_append_left (hlength ▸ hi)] at hplace
    · rw [List.getElem?_eq_none (Nat.not_lt.1 hi),
        List.getElem?_eq_none (hlength ▸ Nat.not_lt.1 hi)]
  rw [hbody, hbody', hsame, eq_of_toUpper_eq hd rfl]

theorem token {kind : TokenKind} {value : Literal} (h : Recased (c :: cs) (d :: ds))
    (hp : piece c cs = .token kind n value) :
    piece d ds = .token kind n value ∧
    lexemeOf kind (c :: cs.take n) = lexemeOf kind (d :: ds.take n) ∧
      Recased (cs.drop n) (ds.drop n) := by
  have hfound := piece_describes c cs
  have hsound := piece_sound c cs
  rw [hp] at hfound hsound
  have hlength : cs.length = ds.length := by simpa using congrArg List.length h.letters_tail.2
  cases hfound with
  | token lexeme ends =>
    have hletters : (c :: cs.take n).map Char.toUpper = (d :: ds.take n).map Char.toUpper := by
      rw [List.map_cons, List.map_take, h.letters_tail.1, h.letters_tail.2, ← List.map_take,
        ← List.map_cons]
    have hrest : (cs.drop n).map Char.toUpper = (ds.drop n).map Char.toUpper := by
      rw [List.map_drop, h.letters_tail.2, List.map_drop]
    obtain ⟨hlexeme, hshown⟩ := lexeme.recased hletters fun hkind => by
      subst hkind
      exact h.text_eq lexeme
    refine ⟨?_, hshown, h.drop (.inl lexeme.regionAfter_eq)⟩
    obtain ⟨e, es, hslice, hpiece⟩ := hlexeme.piece_eq (ends.recased hrest)
    obtain ⟨rfl, rfl⟩ := List.cons.inj hslice
    rw [List.take_append_drop] at hpiece
    rw [hpiece, List.length_take, Nat.min_eq_left (hlength ▸ hsound.1)]

theorem fault {f : LexFault} (h : Recased (c :: cs) (d :: ds)) (hp : piece c cs = .fault f) :
    piece d ds = .fault f := by
  have hfound := piece_describes c cs
  rw [hp] at hfound
  cases hfound with
  | fault stands => exact (stands.recased h.letters).piece_eq

end Text.Recased

/-- Both texts are scanned into the same tokens, up to the same error if there is one. -/
theorem scanFrom_recased (p : Position) {cs ds : List Char} (h : Recased cs ds) :
    scanFrom p cs = scanFrom p ds := by
  fun_induction scanFrom p cs generalizing ds with
  | case1 p =>
    obtain rfl : [] = ds := by simpa using h.letters.symm
    rw [scanFrom_nil]
  | case2 p c cs n hpiece ih =>
    obtain ⟨d, ds, rfl, -⟩ := List.map_eq_cons_iff.1 h.letters.symm
    obtain ⟨hpiece', htail⟩ := h.blank hpiece
    rw [scanFrom_cons, hpiece']
    exact ih htail
  | case3 p c cs kind n value hpiece ih =>
    obtain ⟨d, ds, rfl, -⟩ := List.map_eq_cons_iff.1 h.letters.symm
    obtain ⟨hpiece', hshown, htail⟩ := h.token hpiece
    rw [scanFrom_cons, hpiece', hshown, ih htail]
  | case4 p c cs f hpiece =>
    obtain ⟨d, ds, rfl, -⟩ := List.map_eq_cons_iff.1 h.letters.symm
    rw [scanFrom_cons, h.fault hpiece]

theorem Text.countLines_recased {cs ds : List Char} (h : Recased cs ds) :
    countLines cs = countLines ds := by
  have hnewline := eq_caseBlind (d := '\n') rfl
  have hcount (l : List Char) : l.count '\n' = (l.map fun c => decide (c = '\n')).count true := by
    rw [List.count, List.count, List.countP_map]
    exact List.countP_congr fun c _ => by simp
  have hlast (l : List Char) : l.getLast?.all (· = '\n') =
      (l.map fun c => decide (c = '\n')).getLast?.all id := by
    rw [List.getLast?_map]
    cases l.getLast? <;> rfl
  rw [countLines, countLines, hcount cs, hcount ds, hlast cs, hlast ds, hnewline.map_eq h.letters]

theorem Reading.piece_recased {s t : String} (h : Recased s.toList t.toList) (catalog : Catalog)
    (first : Nat) (d : Draft) :
    Reading.piece catalog first s d = Reading.piece catalog first t d := by
  simp only [Reading.piece, Reading.text, scan, scanFrom_recased _ h]

theorem Reader.parse_recased {s t : String} (h : Recased s.toList t.toList) (catalog : Catalog)
    (r : Reader) :
    r.parse catalog s = r.parse catalog t := by
  simp only [Reader.parse, Reading.piece_recased h, lineCount, countLines_recased h]

theorem Session.parse_recased {s t : String} (h : Recased s.toList t.toList) :
    Session.parse s = Session.parse t := by
  funext session
  simp only [Session.parse, Reader.parse_recased h]

/-- Texts that differ in the case of letters outside string literals only are scanned into the same
tokens, up to the same error if there is one, from any line on. So they are read in the same way by
any reader, and are run in the same way, as part of a session or of a program in pieces. -/
theorem case_is_immaterial {s t : String} (h : Recased s.toList t.toList) :
    (∀ line, scan line s = scan line t) ∧
    (∀ catalog (r : Reader), r.parse catalog s = r.parse catalog t) ∧
    (Session.parse s = Session.parse t ∧ Session.feed s = Session.feed t) ∧
    ∀ before after,
      Session.build (before ++ s :: after) = Session.build (before ++ t :: after) := by
  refine ⟨fun line => scanFrom_recased _ h, fun catalog r => Reader.parse_recased h catalog r,
    ⟨Session.parse_recased h, ?_⟩, ?_⟩
  · simp only [Session.feed, Session.parse_recased h]
  · intro before after
    have hall :
        Session.parseAll (before ++ s :: after) = Session.parseAll (before ++ t :: after) := by
      induction before with
      | nil => simp only [List.nil_append, Session.parseAll, Session.parse_recased h]
      | cons p ps ih => simp only [List.cons_append, Session.parseAll, ih]
    simp only [Session.build, hall]

/-- Quotes in a comment, marks of comments in a string, a letter that has no case here,
and a fault at the end. -/
theorem case_is_immaterial_fault :
    let s := "if\"It's é\"'x\"q\"é\r\nAb<>1.5e @\"z"
    let t := "IF\"It's é\"'X\"Q\"é\r\naB<>1.5E @\"Z"
    Recased s.toList t.toList ∧ (∀ line, scan line s = scan line t) ∧
      (scan 1 t).error = some ⟨.illegalCharacter '@', 2, 9⟩ := by
  intro s t
  have h : Recased s.toList t.toList := by decide +kernel
  exact ⟨h, (case_is_immaterial h).1, by decide +kernel⟩

end LineBasic
