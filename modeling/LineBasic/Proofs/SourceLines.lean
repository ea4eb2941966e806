import LineBasic.Proofs.Scanning
import LineBasic.Program.Reader

/-!
# A text as the statements of its lines

Reading a text succeeds exactly if every line of it, looked at by itself, is a line of the language,
and the statements of the lines can be placed one after another.

* `Text.lines` : the lines of a text; `statementOf?` : what a line says, whatever stands around it.
* `Progress.steps` : statements placed one after another, with the numbers of their lines.
* `Reading.text_result` : reading a text is placing its statements.
* `Reader.parse?`, `Reader.parseAll?` : pieces that can be read.
-/

namespace LineBasic

/-! ### Lines of a text -/

namespace Text

/-- The lines of a text, without the newlines between them. After a last
newline comes an empty line. -/
def lines : List Char → List (List Char)
  | [] => [[]]
  | c :: cs => if c = '\n' then [] :: lines cs else (lines cs).modifyHead (c :: ·)

theorem lines_ne_nil (cs : List Char) : lines cs ≠ [] := by
  induction cs with
  | nil => simp [lines]
  | cons c cs ih =>
    unfold lines
    split
    · simp
    · simpa using ih

theorem lines_of_not_mem {l : List Char} (h : '\n' ∉ l) : lines l = [l] := by
  induction l with
  | nil => rfl
  | cons c cs ih =>
    have hc : c ≠ '\n' := fun hc => h (hc ▸ .head _)
    simp [lines, hc, ih fun hcs => h (.tail _ hcs)]

theorem lines_append (a b : List Char) : lines (a ++ '\n' :: b) = lines a ++ lines b := by
  induction a with
  | nil => simp [lines]
  | cons c cs ih =>
    simp only [List.cons_append, lines, ih]
    split
    · rfl
    · obtain ⟨l, ls, hls⟩ := List.exists_cons_of_ne_nil (lines_ne_nil cs)
      simp [hls]

/-- A text is a line, or a line with a text after its end. -/
theorem line_induction {P : List Char → Prop} (last : ∀ l, '\n' ∉ l → P l)
    (more : ∀ l rest, '\n' ∉ l → P rest → P (l ++ '\n' :: rest)) (cs : List Char) : P cs := by
  induction hlen : cs.length using Nat.strongRecOn generalizing cs with
  | ind n ih =>
    by_cases hmem : '\n' ∈ cs
    · obtain ⟨l, rest, rfl, hl⟩ := List.eq_append_cons_of_mem hmem
      exact more l rest hl (ih rest.length (by simp at hlen; omega) rest rfl)
    · exact last cs hmem

end Text

/-! ### Lines of tokens -/

/-- Tokens up to the first that ends a line make the first line. -/
theorem splitLines_append {line : Nat} {ts rest : List Token} {e : Token}
    (hts : Tokens.OnLine line ts) (he : e.kind.endsLine = true) :
    splitLines (ts ++ e :: rest) = (ts ++ [e]) :: splitLines rest := by
  induction ts with
  | nil => simp [splitLines, he]
  | cons t ts ih =>
    have ht : t.kind.endsLine = false := (hts t (.head _)).1
    simp [splitLines, ht, ih fun u hu => hts u (.tail _ hu)]

/-- What the tokens of a line say: nothing if it is empty. -/
def Tokens.statement? (ts : List Token) : Option (Option Statement) :=
  match ts with
  | [] => some none
  | t :: _ =>
    if t.kind.endsLine then some none
    else
      match Rule.statement ts with
      | .ok (s, _) => some (some s)
      | .error _ => none

/-- What a line says, if it is a line of the language. -/
def statementOf? (l : List Char) : Option (Option Statement) :=
  match (scanFrom ⟨1, 0⟩ l).error with
  | some _ => none
  | none => Tokens.statement? (scanFrom ⟨1, 0⟩ l).tokens

/-- What the lines of a text say. -/
def statementsOf? (cs : List Char) : Option (List (Option Statement)) :=
  (Text.lines cs).mapM statementOf?

theorem statementsOf?_of_not_mem {l : List Char} (h : '\n' ∉ l) :
    statementsOf? l = (statementOf? l).map fun s => [s] := by
  rw [statementsOf?, Text.lines_of_not_mem h]
  cases hs : statementOf? l <;> simp [hs]

theorem statementsOf?_append (a b : List Char) :
    statementsOf? (a ++ '\n' :: b) =
      (statementsOf? a).bind fun ss => (statementsOf? b).map fun ss' => ss ++ ss' := by
  simp only [statementsOf?, Text.lines_append, List.mapM_append]
  cases (Text.lines a).mapM statementOf? <;> cases (Text.lines b).mapM statementOf? <;> rfl

theorem statementsOf?_nil : statementsOf? [] = some [none] := by
  rw [statementsOf?_of_not_mem (by simp), statementOf?, scanFrom_nil]
  rfl

/-- After a newline at the end comes a line that says nothing. -/
theorem statementsOf?_append_newline (b : List Char) :
    statementsOf? (b ++ ['\n']) = (statementsOf? b).map (· ++ [none]) := by
  rw [statementsOf?_append, statementsOf?_nil]
  cases statementsOf? b <;> rfl

theorem length_statementsOf? {cs : List Char} {ss : List (Option Statement)}
    (h : statementsOf? cs = some ss) : ss.length = (Text.lines cs).length := by
  unfold statementsOf? at h
  generalize Text.lines cs = ls at h
  induction ls generalizing ss with
  | nil =>
    obtain rfl : [] = ss := by simpa using h
    rfl
  | cons l ls ih =>
    simp only [List.mapM_cons, Option.pure_def, Option.bind_eq_bind, Option.bind_eq_some_iff] at h
    obtain ⟨s, -, rest, hrest, heq⟩ := h
    obtain rfl : s :: rest = ss := Option.some.inj heq
    simp [ih hrest]

/-- The statements of source text are proper ones. -/
theorem Tokens.statement?_proper {ts : List Token} {s : Statement} (hw : Tokens.Worded ts)
    (h : Tokens.statement? ts = some (some s)) : s.Proper := by
  cases ts with
  | nil => cases h
  | cons t ts =>
    simp only [Tokens.statement?] at h
    split at h
    · cases h
    · obtain ⟨s', rest, -, hok, -, hs', -⟩ | ⟨f, -, herr, -⟩ :=
        Rule.statement_reads.ends hw (Tokens.Alike.refl _)
      · rw [hok] at h
        cases h
        exact hs'
      · rw [herr] at h
        cases h

theorem statementOf?_proper {l : List Char} {s : Statement} (h : statementOf? l = some (some s)) :
    s.Proper := by
  unfold statementOf? at h
  split at h
  · cases h
  · exact Tokens.statement?_proper (scanFrom_worded _ l) h

theorem exists_of_mem_mapM {α β : Type} {f : α → Option β} {as : List α} {bs : List β}
    (h : as.mapM f = some bs) {b : β} (hb : b ∈ bs) : ∃ a ∈ as, f a = some b := by
  induction as generalizing bs with
  | nil =>
    obtain rfl : [] = bs := by simpa using h
    cases hb
  | cons a as ih =>
    simp only [List.mapM_cons, Option.pure_def, Option.bind_eq_bind, Option.bind_eq_some_iff] at h
    obtain ⟨b', hb', bs', hbs', heq⟩ := h
    obtain rfl : b' :: bs' = bs := Option.some.inj heq
    rcases List.mem_cons.1 hb with rfl | hb
    · exact ⟨a, .head _, hb'⟩
    · obtain ⟨a', ha', h'⟩ := ih hbs' hb
      exact ⟨a', .tail _ ha', h'⟩

theorem statementsOf?_proper {cs : List Char} {ss : List (Option Statement)}
    (h : statementsOf? cs = some ss) : ∀ s, some s ∈ ss → s.Proper := by
  intro s hs
  obtain ⟨l, -, hl⟩ := exists_of_mem_mapM h hs
  exact statementOf?_proper hl

/-! ### Statements placed one after another -/

/-- The progress of a reading that succeeded. -/
def Reading.result (r : Reading) : Option Progress :=
  match r.2 with
  | none => some r.1
  | some _ => none

namespace Progress

/-- What a `USE` on a line makes of the progress, if it can be read. -/
abbrev Uses := String → Nat → Progress → Option Progress

/-- The uses that succeed. -/
def Uses.ofIncluder (use : Includer) : Uses := fun name line p => (use name line p).result

/-- Places what a line says. -/
def step (use : Uses) (line : Nat) (p : Progress) : Option Statement → Option Progress
  | none => some p
  | some (.use name) => use name line p
  | some s =>
    match p.draft.place line s with
    | .ok r => some (p.advance r)
    | .error _ => none

/-- Places what the lines from a number on say. -/
def steps (use : Uses) : Nat → List (Option Statement) → Progress → Option Progress
  | _, [], p => some p
  | line, s :: ss, p => (p.step use line s).bind (steps use (line + 1) ss)

theorem steps_append (use : Uses) (line : Nat) (ss ss' : List (Option Statement)) (p : Progress) :
    steps use line (ss ++ ss') p =
      (steps use line ss p).bind (steps use (line + ss.length) ss') := by
  induction ss generalizing line p with
  | nil => rfl
  | cons s ss ih =>
    simp only [List.cons_append, steps, List.length_cons, Option.bind_assoc]
    congr 1
    funext q
    rw [ih, Nat.add_right_comm, Nat.add_assoc]

theorem steps_append_none (use : Uses) (line : Nat) (ss : List (Option Statement)) (p : Progress) :
    steps use line (ss ++ [none]) p = steps use line ss p := by
  rw [steps_append]
  cases steps use line ss p <;> rfl

end Progress

/-! ### Reading a text -/

namespace Reading

open Tokens Progress

variable {use : Includer}

/-- Alike tokens say the same. -/
theorem statement?_alike {ts us : List Token} (hw : Worded ts) (ha : Alike ts us) :
    statement? ts = statement? us := by
  have hends := Rule.statement_reads.ends hw ha
  cases ha with
  | nil => rfl
  | cons ht _ =>
    simp only [statement?, ← ht.endsLine_eq]
    obtain ⟨s, rest, rest', hts, hus, -⟩ | ⟨f, g, hts, hus⟩ := hends <;> rw [hts, hus]

/-- Reading a line is placing what it says. -/
theorem line_result {ts : List Token} {number : Nat}
    (hline : ∀ t ∈ ts.head?, t.kind.endsLine = false → t.line = number) (p : Progress) :
    (line use ts p).result = (statement? ts).bind (p.step (.ofIncluder use) number) := by
  cases ts with
  | nil => rfl
  | cons t ts =>
    simp only [line, statement?]
    split
    · rfl
    · next he =>
      rw [hline t rfl (by simpa using he)]
      cases hs : Rule.statement (t :: ts) with
      | error f => rfl
      | ok r =>
        obtain ⟨s, rest⟩ := r
        cases s <;> simp only [Option.bind_some, step]
        case use name => rfl
        all_goals
          generalize p.draft.place number _ = placed
          cases placed <;> rfl

theorem lines_cons (l : List Token) (ls : List (List Token)) (p : Progress) :
    (lines use (l :: ls) p).result = ((line use l p).result).bind fun q =>
      (lines use ls q).result := by
  simp only [lines]
  obtain ⟨q, e⟩ := line use l p
  cases e <;> rfl

/-- Reading what was scanned, if it has no fault. -/
def scanned (use : Includer) (s : Scan) (p : Progress) : Option Progress :=
  match s.error with
  | some _ => none
  | none => (lines use (splitLines s.tokens) p).result

theorem scanned_of_error {s : Scan} (h : s.error ≠ none) (p : Progress) :
    scanned use s p = none := by
  unfold scanned
  split
  · rfl
  · next hnone => exact absurd hnone h

/-- The first line of a text, which ends with the token `e`, and the scan of what comes after it. -/
theorem scanned_line {l : List Char} {ts : List Token} {e : Token} {number : Nat} {s : Scan}
    (hts : OnLine number ts) (he : e.kind.endsLine = true) (hw : Worded (ts ++ [e]))
    (hok : (scanFrom ⟨1, 0⟩ l).error = none) (ha : Alike (ts ++ [e]) (scanFrom ⟨1, 0⟩ l).tokens)
    (p : Progress) :
    scanned use (s.prepend (ts ++ [e])) p =
      ((statementOf? l).bind (p.step (.ofIncluder use) number)).bind (scanned use s) := by
  -- an empty line starts with its end, whose number is never looked at
  have hline : ∀ t ∈ (ts ++ [e]).head?, t.kind.endsLine = false → t.line = number := by
    intro t ht hend
    cases ts with
    | nil =>
      obtain rfl := Option.some.inj ht
      simp [he] at hend
    | cons u us =>
      obtain rfl := Option.some.inj ht
      exact (hts u (.head _)).2
  have hstatement : statementOf? l = statement? (ts ++ [e]) := by
    rw [statementOf?, hok, statement?_alike hw ha]
  obtain ⟨tokens, last, error⟩ := s
  have hsplit : splitLines ((ts ++ [e]) ++ tokens) = (ts ++ [e]) :: splitLines tokens := by
    rw [List.append_assoc]
    exact splitLines_append hts he
  cases error with
  | some e => exact (Option.bind_fun_none _).symm
  | none =>
    show (lines use (splitLines ((ts ++ [e]) ++ tokens)) p).result = _
    rw [hsplit, lines_cons, line_result hline, hstatement]
    rfl

/-- One end of a line is as good as the other. -/
theorem alike_lineEnd {ts us : List Token} {e f : Token} (he : e.kind.endsLine = true)
    (hf : f.kind.endsLine = true) (h : Alike (ts ++ [e]) us) : Alike (ts ++ [f]) us := by
  induction ts generalizing us with
  | nil =>
    cases h with
    | cons hu hus => exact .cons (.inl ⟨hf, hu.endsLine_eq ▸ he⟩) hus
  | cons t ts ih =>
    cases h with
    | cons hu hus => exact .cons hu (ih hus)

/-- The two kinds of lines: one that can be scanned, with its tokens, and one
with a lexical fault. -/
theorem line_cases (first : Nat) (l : List Char) (hl : '\n' ∉ l) :
    (∃ ts q, q.line = first ∧ OnLine first ts ∧ (scanFrom ⟨1, 0⟩ l).error = none ∧
      (∀ e : Token, e.kind.endsLine = true →
        Worded (ts ++ [e]) ∧ Alike (ts ++ [e]) (scanFrom ⟨1, 0⟩ l).tokens) ∧
      ∀ rest, Text.AtLineEnd rest →
        scanFrom ⟨first, 0⟩ (l ++ rest) = (scanFrom q rest).prepend ts) ∨
    (statementOf? l = none ∧
      ∀ rest, Text.AtLineEnd rest → (scanFrom ⟨first, 0⟩ (l ++ rest)).error ≠ none) := by
  have halike := scanFrom_alike ⟨first, 0⟩ ⟨1, 0⟩ l
  obtain ⟨ts, q, hq, hts, hscan⟩ | ⟨ts, e, hscan⟩ := scanFrom_line ⟨first, 0⟩ l hl
  · have hthis := hscan [] Text.atLineEnd_nil
    rw [List.append_nil, scanFrom_nil] at hthis
    rw [hthis] at halike
    refine .inl ⟨ts, q, hq, hts, halike.2.1 rfl, fun e he => ⟨?_, ?_⟩, hscan⟩
    · have hworded := scanFrom_worded ⟨first, 0⟩ l
      rw [hthis] at hworded
      intro t ht hname
      rcases List.mem_append.1 ht with ht | ht
      · exact hworded t (List.mem_append_left _ ht) hname
      · rw [List.mem_singleton.1 ht] at hname
        simp [hname, TokenKind.endsLine] at he
    · exact alike_lineEnd rfl he halike.1
  · have hthis := hscan [] Text.atLineEnd_nil
    rw [List.append_nil] at hthis
    rw [hthis] at halike
    refine .inr ⟨?_, fun rest hr => by simp [hscan rest hr]⟩
    unfold statementOf?
    split
    · rfl
    · next hnone => simpa using halike.2.2 hnone

/-- Reading a text is placing what its lines say. -/
theorem scanned_eq (cs : List Char) (first : Nat) (p : Progress) :
    scanned use (scanFrom ⟨first, 0⟩ cs) p =
      (statementsOf? cs).bind fun ss => steps (.ofIncluder use) first ss p := by
  induction cs using Text.line_induction generalizing first p with
  | last l hl =>
    rw [statementsOf?_of_not_mem hl]
    -- the last line ends where the text does
    obtain ⟨ts, q, hq, hts, hok, hend, hscan⟩ | ⟨hnone, herror⟩ := line_cases first l hl
    · obtain ⟨hw, ha⟩ := hend ⟨.finish, "", q.line, q.column, .nothing⟩ rfl
      have hthis : scanFrom ⟨first, 0⟩ l =
          Scan.prepend (ts ++ [⟨.finish, "", q.line, q.column, .nothing⟩]) ⟨[], q.line, none⟩ := by
        rw [← List.append_nil l, hscan [] Text.atLineEnd_nil, scanFrom_nil]
        simp [Scan.prepend]
      rw [hthis, scanned_line hts rfl hw hok ha]
      cases statementOf? l with
      | none => rfl
      | some s => rfl
    · have herror := herror [] Text.atLineEnd_nil
      rw [List.append_nil] at herror
      rw [hnone, scanned_of_error herror]
      rfl
  | more l rest hl ih =>
    rw [statementsOf?_append, statementsOf?_of_not_mem hl]
    obtain ⟨ts, q, rfl, hts, hok, hend, hscan⟩ | ⟨hnone, herror⟩ := line_cases first l hl
    · obtain ⟨hw, ha⟩ := hend ⟨.newline, "\n", q.line, q.column, .nothing⟩ rfl
      have hthis : scanFrom ⟨q.line, 0⟩ (l ++ '\n' :: rest) =
          Scan.prepend (ts ++ [⟨.newline, "\n", q.line, q.column, .nothing⟩])
            (scanFrom ⟨q.line + 1, 0⟩ rest) := by
        rw [hscan _ (Text.atLineEnd_newline rest), scanFrom_newline]
        simp [Scan.prepend, Scan.cons]
      have hrest : scanned use (scanFrom ⟨q.line + 1, 0⟩ rest) =
          fun p => (statementsOf? rest).bind fun ss => steps (.ofIncluder use) (q.line + 1) ss p :=
        funext fun p => ih (q.line + 1) p
      rw [hthis, scanned_line hts rfl hw hok ha, hrest]
      cases statementOf? l with
      | none => rfl
      | some s =>
        -- a fault in a later line makes the text unreadable, whatever the first line does
        cases statementsOf? rest with
        | none => exact Option.bind_fun_none _
        | some ss => rfl
    · rw [hnone, scanned_of_error (herror _ (Text.atLineEnd_newline rest))]
      rfl

/-- Reading a text succeeds exactly if all its lines say something, and these statements can be
placed one after another. -/
theorem text_result (use : Includer) (first : Nat) (source : String) (p : Progress) :
    (text use first source p).result =
      (statementsOf? source.toList).bind fun ss => steps (.ofIncluder use) first ss p := by
  rw [← scanned_eq, text, scanned, scan]
  cases (scanFrom ⟨first, 0⟩ source.toList).error <;> rfl

end Reading

/-! ### Modules -/

namespace Catalog

/-- The text of the module with a name, if it is one of source text. -/
def source? (catalog : Catalog) (name : String) : Option String :=
  match catalog.lookup name with
  | some (.ok (.source _ text)) => some text
  | _ => none

/-- What else a name stands for: a library or a script. -/
def unit? (catalog : Catalog) (name : String) : Option Inclusion :=
  match catalog.lookup name with
  | some (.error _) => none
  | some (.ok (.source _ _)) => none
  | found =>
    match Bundle.ofName? name, found with
    | some _, _ => some (.library name)
    | none, some (.ok (.script path)) => some (.script path)
    | none, _ => none

end Catalog

namespace Progress

/-- The uses of the modules of a catalog, inside other modules. -/
def Uses.ofCatalog (catalog : Catalog) (depth : Nat) (within : List String) : Uses :=
  .ofIncluder (Reading.includeModule catalog depth within)

/-- A use of a source module places the statements of its text; its lines count from one. -/
theorem ofCatalog_succ (catalog : Catalog) (depth : Nat) (within : List String) (name : String)
    (line : Nat) (p : Progress) :
    Uses.ofCatalog catalog (depth + 1) within name line p =
      if name ∈ within then none
      else
        match catalog.source? name with
        | some text => (statementsOf? text.toList).bind fun ss =>
            steps (.ofCatalog catalog depth (name :: within)) 1 ss p
        | none => (catalog.unit? name).map fun what => p.add (.plain (.inclusion what) []) := by
  have hunfold : Uses.ofCatalog catalog (depth + 1) within name line p =
      (Reading.includeModule catalog (depth + 1) within name line p).result := rfl
  rw [hunfold]
  simp only [Reading.includeModule, List.contains_iff_mem, Catalog.source?, Catalog.unit?]
  split
  · rfl
  · obtain _ | (fault | (⟨path, text⟩ | path)) := catalog.lookup name
    · cases Bundle.ofName? name <;> rfl
    · rfl
    · exact Reading.text_result _ 1 text p
    · cases Bundle.ofName? name <;> rfl

end Progress

/-! ### Pieces that can be read -/

namespace Reader

/-- Reads one more piece, if it can be read. -/
def parse? (catalog : Catalog) (source : String) (r : Reader) : Option (Reader × List Node) :=
  match r.parse catalog source with
  | (r', .ok nodes) => some (r', nodes)
  | (_, .error _) => none

/-- Reads pieces one after another, if all of them can be read, and collects
the nodes they finish. -/
def parseAll? (catalog : Catalog) : List String → Reader → Option (Reader × List Node)
  | [], r => some (r, [])
  | s :: ss, r => (r.parse? catalog s).bind fun first =>
      (parseAll? catalog ss first.1).map fun others => (others.1, first.2 ++ others.2)

/-- The tree of a program in pieces, if all of them can be read and no construct is left open. -/
def program? (catalog : Catalog) (pieces : List String) : Option Node :=
  (parseAll? catalog pieces .start).bind fun read => read.1.finish.toOption

/-- The uses at the top level of a program. -/
def uses (catalog : Catalog) : Progress.Uses := .ofCatalog catalog (catalog.length + 1) []

theorem parse?_eq (catalog : Catalog) (source : String) (r : Reader) :
    r.parse? catalog source =
      ((statementsOf? source.toList).bind fun ss =>
        Progress.steps (uses catalog) r.line ss ⟨r.draft, #[]⟩).map fun p =>
          (⟨p.draft, r.line + max 1 (Text.lineCount source)⟩, p.handed.toList) := by
  have hread := Reading.text_result (Reading.includeModule catalog (catalog.length + 1) []) r.line
    source ⟨r.draft, #[]⟩
  rw [uses, Progress.Uses.ofCatalog, ← hread]
  simp only [parse?, parse, Reading.piece]
  obtain ⟨p, _ | e⟩ := Reading.text (Reading.includeModule catalog (catalog.length + 1) []) r.line
    source ⟨r.draft, #[]⟩ <;> rfl

end Reader
end LineBasic
