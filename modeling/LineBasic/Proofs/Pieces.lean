import LineBasic.Proofs.SourceLines

/-!
# Pieces of source

Reading source in pieces is reading the whole of it: the pieces one after another, each ended by a
newline if it does not end with one. Both can be read or neither, and both lead to the same reader
and hand out the same nodes.

* `Text.terminated`, `Text.joined` : a piece with its newline, and all pieces in one text.
* `Progress.after` : progress with nodes handed out before. Placing
  statements does not look at them.
* `Reader.parse?_terminated`, `Reader.parse?_append` : the last newline of a text does not matter,
  and what comes after a newline can be read on its own.
* `Reader.pieces_read_as_whole` : pieces and the whole.
-/

namespace LineBasic

/-! ### Newlines at the end -/

namespace Text

/-- A text with a newline at its end. -/
def terminated (s : String) : String := if s.toList.getLast? = some '\n' then s else s ++ "\n"

/-- Texts one after another, each with a newline at its end. -/
def joined : List String → String
  | [] => ""
  | s :: ss => terminated s ++ joined ss

/-- A text up to a newline at its end. -/
theorem exists_unterminated (s : String) :
    ∃ b, (terminated s).toList = b ++ ['\n'] ∧ (s.toList = b ++ ['\n'] ∨
      s.toList = b ∧ b.getLast? ≠ some '\n') := by
  unfold terminated
  split
  · next h =>
    obtain ⟨b, hb⟩ := List.getLast?_eq_some_iff.1 h
    exact ⟨b, hb, .inl hb⟩
  · next h => exact ⟨s.toList, by simp, .inr ⟨rfl, h⟩⟩

theorem length_lines (cs : List Char) : (lines cs).length = cs.count '\n' + 1 := by
  induction cs with
  | nil => rfl
  | cons c cs ih =>
    unfold lines
    split
    · next h => simp [h, ih]
    · next h => simp [h, ih]

theorem countLines_append_newline (b : List Char) :
    countLines (b ++ ['\n']) = (lines b).length := by
  simp [countLines, length_lines]

/-- A piece counts as many lines as it has, but one at least. -/
theorem max_countLines {b : List Char} (h : b.getLast? ≠ some '\n') :
    max 1 (countLines b) = (lines b).length := by
  rw [length_lines, countLines]
  cases hb : b.getLast? with
  | none =>
    rw [List.getLast?_eq_none_iff.1 hb]
    rfl
  | some c =>
    have hc : c ≠ '\n' := fun hc => h (hc ▸ hb)
    simp [hc]

theorem countLines_append {rest : List Char} (h : rest ≠ []) (b : List Char) :
    countLines (b ++ '\n' :: rest) = (lines b).length + countLines rest := by
  have hc := List.getLast?_eq_some_getLast h
  simp only [countLines, length_lines, List.count_append, List.count_cons_self,
    List.getLast?_append, List.getLast?_cons, hc, Option.getD_some, Option.some_or]
  omega

theorem countLines_pos {cs : List Char} (h : cs ≠ []) : 1 ≤ countLines cs := by
  have hc := List.getLast?_eq_some_getLast h
  unfold countLines
  by_cases hn : cs.getLast h = '\n'
  · have hmem : '\n' ∈ cs := hn ▸ List.getLast_mem h
    have hpos : 0 < cs.count '\n' := List.count_pos_iff.2 hmem
    omega
  · simp [hc, hn]

theorem joined_ne_nil (s : String) (ss : List String) : (joined (s :: ss)).toList ≠ [] := by
  obtain ⟨b, hb, -⟩ := exists_unterminated s
  simp [joined, hb]

end Text

/-! ### Nodes handed out before -/

namespace Progress

/-- Progress with nodes handed out before. -/
def after (h : Array Node) (p : Progress) : Progress := ⟨p.draft, h ++ p.handed⟩

/-- The uses that do not look at the nodes handed out before. -/
def Uses.Forgetful (use : Uses) : Prop :=
  ∀ name line h p, use name line (p.after h) = (use name line p).map (after h)

theorem advance_after (h : Array Node) (p : Progress) (r : Draft × Option Node) :
    (p.after h).advance r = (p.advance r).after h := by
  obtain ⟨d, _ | n⟩ := r
  · rfl
  · simp [advance, after]

theorem step_after {use : Uses} (hu : use.Forgetful) (line : Nat) (h : Array Node) (p : Progress)
    (s : Option Statement) : (p.after h).step use line s = (p.step use line s).map (after h) := by
  unfold step
  split
  · rfl
  · exact hu ..
  · rw [show (p.after h).draft = p.draft from rfl]
    split
    · simp [advance_after]
    · rfl

theorem steps_after {use : Uses} (hu : use.Forgetful) (line : Nat) (h : Array Node) (p : Progress)
    (ss : List (Option Statement)) :
    steps use line ss (p.after h) = (steps use line ss p).map (after h) := by
  induction ss generalizing line p with
  | nil => rfl
  | cons s ss ih =>
    simp only [steps, step_after hu, Option.bind_map, Option.map_bind]
    congr 1
    funext q
    exact ih (line + 1) q

theorem ofCatalog_forgetful (catalog : Catalog) (depth : Nat) (within : List String) :
    (Uses.ofCatalog catalog depth within).Forgetful := by
  induction depth generalizing within with
  | zero => exact fun _ _ _ _ => rfl
  | succ depth ih =>
    intro name line h p
    rw [ofCatalog_succ, ofCatalog_succ]
    split
    · rfl
    · split
      · rw [Option.map_bind]
        congr 1
        funext ss
        exact steps_after (ih _) 1 h p ss
      · rw [Option.map_map]
        congr 1
        funext what
        exact advance_after h p _

end Progress

/-! ### Pieces and the whole -/

namespace Reader

variable {catalog : Catalog}

theorem uses_forgetful (catalog : Catalog) : (uses catalog).Forgetful :=
  Progress.ofCatalog_forgetful catalog (catalog.length + 1) []

/-- The newline at the end of a text does not matter. -/
theorem steps_body {s : String} {b : List Char}
    (h : s.toList = b ++ ['\n'] ∨ s.toList = b ∧ b.getLast? ≠ some '\n') {use : Progress.Uses}
    {line : Nat} {p : Progress} :
    ((statementsOf? s.toList).bind fun ss => Progress.steps use line ss p) =
      (statementsOf? b).bind fun ss => Progress.steps use line ss p := by
  rcases h with h | ⟨h, -⟩
  · rw [h, statementsOf?_append_newline, Option.bind_map]
    simp only [Function.comp_def, Progress.steps_append_none]
  · rw [h]

/-- A piece up to a newline at its end. -/
theorem parse?_body {s : String} {b : List Char} (r : Reader)
    (h : s.toList = b ++ ['\n'] ∨ s.toList = b ∧ b.getLast? ≠ some '\n') :
    r.parse? catalog s =
      (statementsOf? b).bind fun ss =>
        (Progress.steps (uses catalog) r.line ss ⟨r.draft, #[]⟩).map fun p =>
          (⟨p.draft, r.line + ss.length⟩, p.handed.toList) := by
  have hcount : max 1 (Text.lineCount s) = (Text.lines b).length := by
    unfold Text.lineCount
    rcases h with h | ⟨h, hlast⟩
    · rw [h, Text.countLines_append_newline, Text.length_lines]
      omega
    · rw [h, Text.max_countLines hlast]
  rw [parse?_eq, steps_body h, hcount]
  cases hss : statementsOf? b with
  | none => rfl
  | some ss => rw [← length_statementsOf? hss, Option.bind_some, Option.bind_some]

theorem parse?_terminated (s : String) (r : Reader) :
    r.parse? catalog (Text.terminated s) = r.parse? catalog s := by
  obtain ⟨b, hb, hs⟩ := Text.exists_unterminated s
  rw [parse?_body r (.inl hb), parse?_body r hs]

/-- What comes after a newline can be read on its own. -/
theorem parse?_append {rest : String} (hrest : rest.toList ≠ []) (s : String) (r : Reader) :
    r.parse? catalog (Text.terminated s ++ rest) =
      (r.parse? catalog s).bind fun first =>
        (first.1.parse? catalog rest).map fun others => (others.1, first.2 ++ others.2) := by
  obtain ⟨b, hb, hs⟩ := Text.exists_unterminated s
  have htext : (Text.terminated s ++ rest).toList = b ++ '\n' :: rest.toList := by
    simp [hb]
  have hcount : max 1 (Text.lineCount (Text.terminated s ++ rest)) =
      (Text.lines b).length + max 1 (Text.lineCount rest) := by
    have hpos := Text.countLines_pos hrest
    rw [Text.lineCount, Text.lineCount, htext, Text.countLines_append hrest]
    omega
  rw [parse?_body r hs, parse?_eq, htext, hcount, statementsOf?_append]
  cases hss : statementsOf? b with
  | none => rfl
  | some ss =>
    rw [← length_statementsOf? hss]
    cases hrest : statementsOf? rest.toList with
    | none =>
      simp only [Option.bind_some, Option.map_none, Option.bind_none, parse?_eq, hrest]
      exact (Option.bind_fun_none _).symm
    | some ss' =>
      simp only [Option.bind_some, Option.map_some, Progress.steps_append, parse?_eq, hrest]
      cases Progress.steps (uses catalog) r.line ss ⟨r.draft, #[]⟩ with
      | none => rfl
      | some p =>
        -- the whole goes on with the nodes of its first part handed out, the second piece with none
        have hafter := Progress.steps_after (uses_forgetful catalog) (r.line + ss.length) p.handed
          ⟨p.draft, #[]⟩ ss'
        have hp : Progress.after p.handed ⟨p.draft, #[]⟩ = p := by simp [Progress.after]
        rw [hp] at hafter
        simp only [Option.bind_some, Option.map_some, hafter, Option.map_map]
        congr 1
        funext q
        simp [Progress.after, Nat.add_assoc]

theorem parseAll?_cons (s : String) (ss : List String) (r : Reader) :
    parseAll? catalog (s :: ss) r = r.parse? catalog (Text.joined (s :: ss)) := by
  induction ss generalizing s r with
  | nil =>
    have hjoined : Text.joined [s] = Text.terminated s := by simp [Text.joined]
    rw [hjoined, parse?_terminated, parseAll?]
    cases r.parse? catalog s with
    | none => rfl
    | some first => simp [parseAll?]
  | cons t ts ih =>
    rw [Text.joined, parse?_append (Text.joined_ne_nil t ts), parseAll?]
    congr 1
    funext first
    rw [ih]

/-- Pieces can be read one after another exactly if the whole text can be read at once. Then the
same nodes are handed out, and the tree and the open constructs with their lines are the same. So is
the number of the next line, if there is a piece at all: a text without lines counts as one. -/
theorem pieces_read_as_whole (catalog : Catalog) (pieces : List String) (r : Reader) :
    ((parseAll? catalog pieces r).map fun read => (read.1.draft, read.2)) =
      ((r.parse? catalog (Text.joined pieces)).map fun read => (read.1.draft, read.2)) ∧
    (pieces ≠ [] → parseAll? catalog pieces r = r.parse? catalog (Text.joined pieces)) := by
  cases pieces with
  | nil =>
    -- the whole is the empty text, a piece of one line
    refine ⟨?_, fun h => absurd rfl h⟩
    rw [parseAll?, Text.joined, parse?_body r (.inr ⟨rfl, by simp⟩), String.toList_empty,
      statementsOf?_nil]
    rfl
  | cons s ss => exact ⟨by rw [parseAll?_cons], fun _ => parseAll?_cons s ss r⟩

/-- A block that four pieces make, one of them empty and one with two lines. -/
theorem pieces_read_as_whole_block :
    ["IF TRUE THEN", "", "PRINT 1\nPRINT 2\n", "END IF"] ≠ [] ∧
      parseAll? [] ["IF TRUE THEN", "", "PRINT 1\nPRINT 2\n", "END IF"] .start =
        start.parse? [] "IF TRUE THEN\n\nPRINT 1\nPRINT 2\nEND IF\n" :=
  ⟨by decide, (pieces_read_as_whole [] _ .start).2 (by decide)⟩

end Reader
end LineBasic
