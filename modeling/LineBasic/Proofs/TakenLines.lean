import Mathlib.Data.List.Induction
import Mathlib.Data.List.TakeWhile
import LineBasic.Evaluation
import LineBasic.Proofs.SourceLines

/-!
# Lines that are taken one after another

Lines are read from a file or from the console in blocks. What is in a buffer and what is behind it
are one sequence of octets, and reading takes one line from its front.

* `Text.lineTexts` : the lines of a text, told by its newlines alone, without their ends;
  `Text.IsLine` : a text that comes back as a line.
* `Octets.firstLine` : the first line of octets, and the rest; `fetchLine_eq`,
  `Input.programLine_eq` : fetching in blocks takes that line.
* `LineReader`, `LineReader.Reaches` : calls that take a line, and the machines
  on the way of such calls.
* `LineReader.Gives` : the calls give certain lines in order, and nothing after them;
  `LineReader.Gives.repeated` : so does the same call made again and again.
* `LineReader.Takes.gives` : a reader that takes the first line of what is pending
  gives the lines of a text.
* `Console.reader_gives` : the console does.
-/

namespace LineBasic

/-! ### Lines of a text -/

namespace Text

/-- A line without one carriage return at its end. -/
def withoutReturn (line : List Char) : List Char :=
  if line.getLast? = some '\r' then line.dropLast else line

/-- The lines of a text without their ends. A newline ends a line, and a carriage return right
before the newline belongs to the end. What comes after the last newline is a line as it is,
unless there is nothing. -/
def lineTexts (cs : List Char) : List (List Char) :=
  (lines cs).dropLast.map withoutReturn ++ ((lines cs).getLast?.filter (· ≠ [])).toList

/-- A text that, with a newline after it, is one line with all its characters. -/
def IsLine (t : List Char) : Prop := '\n' ∉ t ∧ t.getLast? ≠ some '\r'

instance (t : List Char) : Decidable (IsLine t) := inferInstanceAs (Decidable (_ ∧ _))

variable {line rest cs : List Char}

theorem lineTexts_last (h : '\n' ∉ cs) (hcs : cs ≠ []) : lineTexts cs = [cs] := by
  simp [lineTexts, lines_of_not_mem h, hcs]

theorem lineTexts_append (h : '\n' ∉ line) (rest : List Char) :
    lineTexts (line ++ '\n' :: rest) = withoutReturn line :: lineTexts rest := by
  have hrest := lines_ne_nil rest
  rw [lineTexts, lines_append, lines_of_not_mem h, List.singleton_append,
    List.dropLast_cons_of_ne_nil hrest, List.getLast?_cons_of_ne_nil hrest]
  rfl

/-- Lines that are written one after another, each with a newline. -/
theorem lineTexts_flatMap {ls : List (List Char)} (h : ∀ l ∈ ls, IsLine l) :
    lineTexts (ls.flatMap (· ++ ['\n'])) = ls := by
  induction ls with
  | nil => rfl
  | cons l ls ih =>
    obtain ⟨hline, hreturn⟩ := h l (.head _)
    rw [List.flatMap_cons, List.append_assoc, List.singleton_append, lineTexts_append hline,
      ih fun l hl => h l (.tail _ hl), withoutReturn, if_neg hreturn]

theorem stripLineEnd_last (h : '\n' ∉ cs) : stripLineEnd cs = cs := by
  have hends (r : List Char) : cs.reverse ≠ '\n' :: r := by
    intro hr
    exact h (List.mem_reverse.1 (hr ▸ .head _))
  unfold stripLineEnd
  split
  · next hr => exact absurd hr (hends _)
  · next hr => exact absurd hr (hends _)
  · rfl

theorem stripLineEnd_append (line : List Char) :
    stripLineEnd (line ++ ['\n']) = withoutReturn line := by
  induction line using List.reverseRecOn with
  | nil => rfl
  | append_singleton line c =>
    by_cases hc : c = '\r'
    · subst hc
      simp [stripLineEnd, withoutReturn]
    · simp [stripLineEnd, withoutReturn, hc]

end Text

/-! ### Lines of octets -/

namespace Octets

/-- The octets up to and with the first newline, and the rest; without a newline, all of them. -/
def firstLine (bytes : Octets) : Octets × Octets := (splitLine? bytes).getD (bytes, [])

variable {line bytes : Octets}

theorem takeWhile_line (h : newlineOctet ∉ line) (rest : Octets) :
    (line ++ newlineOctet :: rest).takeWhile (· ≠ newlineOctet) = line := by
  have hline : ∀ b ∈ line, decide (b ≠ newlineOctet) = true := by
    intro b hb
    exact decide_eq_true fun heq => h (heq ▸ hb)
  rw [List.takeWhile_append_of_pos hline, List.takeWhile_cons_of_neg (by simp), List.append_nil]

theorem splitLine?_append (h : newlineOctet ∉ line) (rest : Octets) :
    splitLine? (line ++ newlineOctet :: rest) = some (line ++ [newlineOctet], rest) := by
  simp only [splitLine?, takeWhile_line h, List.drop_left]

theorem splitLine?_last (h : newlineOctet ∉ bytes) : splitLine? bytes = none := by
  have hall : bytes.takeWhile (· ≠ newlineOctet) = bytes := by
    refine List.takeWhile_eq_self_iff.2 fun b hb => decide_eq_true fun heq => h (heq ▸ hb)
  simp only [splitLine?, hall, List.drop_length]

theorem firstLine_append (h : newlineOctet ∉ line) (rest : Octets) :
    firstLine (line ++ newlineOctet :: rest) = (line ++ [newlineOctet], rest) := by
  rw [firstLine, splitLine?_append h, Option.getD_some]

theorem firstLine_last (h : newlineOctet ∉ bytes) : firstLine bytes = (bytes, []) := by
  rw [firstLine, splitLine?_last h, Option.getD_none]

end Octets

/-- As many whole blocks as hold some octets have room for them. -/
theorem le_blocks (n : Nat) : n ≤ (n + blockSize - 1) / blockSize * blockSize := by
  unfold blockSize
  omega

open Octets in
/-- Whatever is in the buffer and however much is fetched, it is the first line that is taken, and
nothing behind it is lost. -/
theorem fetchLine_eq (buffer behind : Octets) :
    ((fetchLine buffer behind).line,
      (fetchLine buffer behind).buffer ++ behind.drop (fetchLine buffer behind).count) =
      firstLine (buffer ++ behind) := by
  by_cases hbuffer : newlineOctet ∈ buffer
  · obtain ⟨line, rest, rfl, hline⟩ := List.eq_append_cons_of_mem hbuffer
    rw [List.append_assoc, List.cons_append, firstLine_append hline, fetchLine,
      splitLine?_append hline]
    rfl
  by_cases hbehind : newlineOctet ∈ behind
  · obtain ⟨line, rest, rfl, hline⟩ := List.eq_append_cons_of_mem hbehind
    have hall : newlineOctet ∉ buffer ++ line := by
      rw [List.mem_append]
      exact fun h => h.elim hbuffer hline
    have hblocks := le_blocks (line ++ [newlineOctet]).length
    rw [← List.append_assoc, firstLine_append hall, fetchLine, splitLine?_last hbuffer,
      splitLine?_append hline, List.append_assoc]
    -- The blocks that are fetched reach to the end of the line at least.
    refine Prod.ext rfl ?_
    simp only
    rw [← List.drop_append_of_le_length (by rw [List.length_take]; simp at hblocks ⊢; omega),
      List.take_append_drop, List.append_cons line newlineOctet rest, List.drop_left]
  · have hall : newlineOctet ∉ buffer ++ behind := by
      rw [List.mem_append]
      exact fun h => h.elim hbuffer hbehind
    rw [firstLine_last hall, fetchLine, splitLine?_last hbuffer, splitLine?_last hbehind]
    simp

/-- All that the console still has for the program. -/
def Input.pending (i : Input) : Octets := i.taken ++ i.waiting ++ i.unread

open Octets in
/-- The program takes the first line of what the console has for it. -/
theorem Input.programLine_eq (i : Input) :
    (i.programLine.1, i.programLine.2.pending) = firstLine i.pending := by
  obtain ⟨taken, waiting, unread⟩ := i
  by_cases htaken : newlineOctet ∈ taken
  · obtain ⟨line, rest, rfl, hline⟩ := List.eq_append_cons_of_mem htaken
    have hpending : pending ⟨line ++ newlineOctet :: rest, waiting, unread⟩ =
        line ++ newlineOctet :: (rest ++ waiting ++ unread) := by
      simp [pending]
    rw [hpending, firstLine_append hline, programLine, splitLine?_append hline]
    rfl
  · rw [show pending ⟨taken, waiting, unread⟩ = taken ++ waiting ++ unread from rfl,
      ← fetchLine_eq, programLine, splitLine?_last htaken]
    simp [pending]

/-! ### Lines of encoded texts -/

namespace Text

/-- Only a newline has a newline among its octets. -/
theorem newlineOctet_mem_utf8EncodeChar {c : Char} :
    newlineOctet ∈ String.utf8EncodeChar c ↔ c = '\n' := by
  constructor
  · intro h
    have hoctet {n : Nat} (hn : newlineOctet = UInt8.ofNat n) : n % 256 = 10 := by
      rw [← UInt8.toNat_ofNat', ← hn]
      rfl
    unfold String.utf8EncodeChar at h
    simp only at h
    split at h
    · next hsmall =>
      have hn := hoctet (List.mem_singleton.1 h)
      refine Char.toNat_inj.1 ?_
      show c.val.toNat = 10
      omega
    · -- All octets of longer forms are at least 128.
      split at h
      · rcases List.mem_cons.1 h with h | h
        · have hn := hoctet h
          omega
        · have hn := hoctet (List.mem_singleton.1 h)
          omega
      · split at h <;> simp only [List.mem_cons, List.not_mem_nil, or_false] at h
        · rcases h with h | h | h <;> have hn := hoctet h <;> omega
        · rcases h with h | h | h | h <;> have hn := hoctet h <;> omega
  · rintro rfl
    decide

/-- The octets of characters. -/
def octets (cs : List Char) : Octets := cs.flatMap String.utf8EncodeChar

theorem octets_toList (s : String) : octets s.toList = encode s := (encode_eq s).symm

@[simp] theorem octets_append (cs ds : List Char) : octets (cs ++ ds) = octets cs ++ octets ds :=
  List.flatMap_append

theorem octets_newline (rest : List Char) :
    octets ('\n' :: rest) = newlineOctet :: octets rest := rfl

theorem newlineOctet_mem_octets {cs : List Char} : newlineOctet ∈ octets cs ↔ '\n' ∈ cs := by
  simp [octets, newlineOctet_mem_utf8EncodeChar]

theorem octets_eq_nil {cs : List Char} : octets cs = [] ↔ cs = [] := by
  cases cs with
  | nil => simp [octets]
  | cons c cs => simp [octets]

theorem lineText_octets {line : List Char} (h : line ≠ []) :
    lineText (octets line) = .ok (some (String.ofList (stripLineEnd line))) := by
  have hne : (octets line).isEmpty = false := by simpa using mt octets_eq_nil.1 h
  have hdecode : decode? (octets line) = some (String.ofList line) := by
    rw [← String.toList_ofList (l := line), octets_toList, decode?_encode, String.ofList_toList]
  simp only [lineText, hne, hdecode, String.toList_ofList]
  rfl

/-- The first line of the octets of a text is the first line of the text, and what is left are the
octets of the other lines. -/
theorem exists_firstLine_octets (cs : List Char) :
    ∃ rest, (Octets.firstLine (octets cs)).2 = octets rest ∧ lineTexts rest = (lineTexts cs).tail ∧
      lineText (Octets.firstLine (octets cs)).1 = .ok ((lineTexts cs).head?.map String.ofList) := by
  by_cases hmem : '\n' ∈ cs
  · obtain ⟨line, rest, rfl, hline⟩ := List.eq_append_cons_of_mem hmem
    have hoctets : newlineOctet ∉ octets line := mt newlineOctet_mem_octets.1 hline
    have hfirst : Octets.firstLine (octets (line ++ '\n' :: rest)) =
        (octets (line ++ ['\n']), octets rest) := by
      rw [octets_append, octets_newline, Octets.firstLine_append hoctets, octets_append]
      rfl
    refine ⟨rest, by rw [hfirst], by rw [lineTexts_append hline, List.tail_cons], ?_⟩
    rw [hfirst, lineText_octets (by simp), stripLineEnd_append, lineTexts_append hline]
    rfl
  · have hfirst : Octets.firstLine (octets cs) = (octets cs, []) :=
      Octets.firstLine_last (mt newlineOctet_mem_octets.1 hmem)
    refine ⟨[], by rw [hfirst]; rfl, ?_, ?_⟩
    · cases cs with
      | nil => rfl
      | cons c cs => rw [lineTexts_last hmem (by simp)]; rfl
    · cases cs with
      | nil => rfl
      | cons c cs =>
        rw [hfirst, lineText_octets (by simp), stripLineEnd_last hmem,
          lineTexts_last hmem (by simp)]
        rfl

end Text

/-! ### Lines that are taken one after another -/

/-- The lines of a text, as texts. -/
def Text.linesOf (s : String) : List String := (lineTexts s.toList).map String.ofList

/-- The machine that a run leaves when it ends with a value. -/
def Run.after {α : Type} (r : Run α) (m : Machine) : Machine :=
  match r m with
  | .value _ m' => m'
  | .failure _ _ => m
  | .exhausted => m

theorem Run.after_of_value {α : Type} {r : Run α} {m m' : Machine} {a : α} (h : r m = .value a m') :
    r.after m = m' := by
  rw [after, h]

theorem Run.value_after {α : Type} {r : Run α} {m : Machine} {a : α} (h : ∃ m', r m = .value a m') :
    r m = .value a (r.after m) := by
  obtain ⟨m', h⟩ := h
  rw [after_of_value h, h]

/-- A way to take lines. -/
structure LineReader where
  /-- The calls that may be made on a machine. -/
  call : Machine → Run Value → Prop
  /-- What else may be done to the machine between calls. -/
  meanwhile : Machine → Machine → Prop

namespace LineReader

/-- The machines that a number of calls lead to. -/
inductive Reaches (r : LineReader) (start : Machine) : Nat → Machine → Prop
  | start : Reaches r start 0 start
  | meanwhile {k : Nat} {m m' : Machine} (before : Reaches r start k m) (step : r.meanwhile m m') :
      Reaches r start k m'
  | call {k : Nat} {m m' : Machine} {run : Run Value} {v : Value} (before : Reaches r start k m)
      (made : r.call m run) (ended : run m = .value v m') : Reaches r start (k + 1) m'

/-- Each call gives the next line, and after the last line nothing for ever. -/
def Gives (r : LineReader) (start : Machine) (lines : List String) : Prop :=
  ∀ k m, r.Reaches start k m → ∀ run, r.call m run →
    ∃ m', run m = .value (Files.lineValue lines[k]?) m'

/-- Calls take the first line of the octets that are pending in a machine; nothing else does. -/
structure Takes (r : LineReader) (pending : Machine → Octets → Prop) : Prop where
  meanwhile : ∀ {m m' : Machine} {bytes : Octets}, pending m bytes → r.meanwhile m m' →
    pending m' bytes
  call : ∀ {m : Machine} {bytes : Octets} {run : Run Value}, pending m bytes → r.call m run →
    ∃ m', pending m' (Octets.firstLine bytes).2 ∧ ∀ line,
      lineText (Octets.firstLine bytes).1 = .ok line → run m = .value (Files.lineValue line) m'

variable {r : LineReader} {pending : Machine → Octets → Prop} {start m m' : Machine} {k : Nat}

/-- With the octets of a text pending, a call takes its first line and leaves
those of the other lines. -/
theorem Takes.call_octets (h : r.Takes pending) {cs : List Char} (hm : pending m (Text.octets cs))
    {run : Run Value} (made : r.call m run) : ∃ m' rest,
      run m = .value (Files.lineValue ((Text.lineTexts cs).head?.map String.ofList)) m' ∧
      pending m' (Text.octets rest) ∧ Text.lineTexts rest = (Text.lineTexts cs).tail := by
  obtain ⟨rest, hrest, htail, hline⟩ := Text.exists_firstLine_octets cs
  obtain ⟨m', hpending, hrun⟩ := h.call hm made
  exact ⟨m', rest, hrun _ hline, hrest ▸ hpending, htail⟩

/-- After a number of calls, the octets of the lines behind them are pending. -/
theorem Takes.pending_of_reaches (h : r.Takes pending) {cs : List Char}
    (hstart : pending start (Text.octets cs)) (hm : r.Reaches start k m) :
    ∃ rest, pending m (Text.octets rest) ∧ Text.lineTexts rest = (Text.lineTexts cs).drop k := by
  induction hm with
  | start => exact ⟨cs, hstart, rfl⟩
  | meanwhile before step ih =>
    obtain ⟨rest, hrest, hdrop⟩ := ih
    exact ⟨rest, h.meanwhile hrest step, hdrop⟩
  | call before made ended ih =>
    obtain ⟨rest, hrest, hdrop⟩ := ih
    obtain ⟨m₁, rest', hrun, hpending, htail⟩ := h.call_octets hrest made
    rw [ended] at hrun
    cases hrun
    exact ⟨rest', hpending, by rw [htail, hdrop, List.tail_drop]⟩

theorem Takes.gives (h : r.Takes pending) {content : String}
    (hstart : pending start (Text.encode content)) :
    r.Gives start (Text.linesOf content) := by
  intro k m hm run made
  rw [← Text.octets_toList] at hstart
  obtain ⟨rest, hrest, hdrop⟩ := h.pending_of_reaches hstart hm
  obtain ⟨m', -, hrun, -⟩ := h.call_octets hrest made
  refine ⟨m', ?_⟩
  rw [hrun, hdrop, List.head?_drop, Text.linesOf, List.getElem?_map]

/-- The machines that the same call leads to, again and again. -/
def repeated (run : Run Value) (start : Machine) : Nat → Machine
  | 0 => start
  | k + 1 => run.after (repeated run start k)

theorem Gives.repeated {lines : List String} (h : r.Gives start lines) {run : Run Value} {n : Nat}
    (made : ∀ k < n, r.call (repeated run start k) run) : ∀ k < n,
      run (repeated run start k) =
        .value (Files.lineValue lines[k]?) (repeated run start (k + 1)) := by
  have hcall (k : Nat) (hk : k < n) (hm : r.Reaches start k (LineReader.repeated run start k)) :
      run (LineReader.repeated run start k) =
        .value (Files.lineValue lines[k]?) (LineReader.repeated run start (k + 1)) := by
    obtain ⟨m', hrun⟩ := h k _ hm run (made k hk)
    rw [hrun, LineReader.repeated, Run.after_of_value hrun]
  have hreaches (k : Nat) (hk : k ≤ n) : r.Reaches start k (LineReader.repeated run start k) := by
    induction k with
    | zero => exact .start
    | succ k ih =>
      have hbefore := ih (Nat.le_of_succ_le hk)
      exact .call hbefore (made k hk) (hcall k hk hbefore)
  exact fun k hk => hcall k hk (hreaches k (Nat.le_of_lt hk))

end LineReader

/-! ### The console -/

/-- The program reads the console line by line, and nothing else does. -/
def Console.reader : LineReader where
  call _ run := ∃ self stack, run = Builtin.input.call self stack []
  meanwhile m m' := m'.input.pending = m.input.pending

theorem Console.reader_takes : reader.Takes fun m bytes => m.input.pending = bytes where
  meanwhile hm step := step.trans hm
  call := by
    rintro m _ _ rfl ⟨self, stack, rfl⟩
    rw [← m.input.programLine_eq]
    refine ⟨{ m with input := m.input.programLine.2 }, rfl, fun line hline => ?_⟩
    show Console.readLine m = _
    simp only [Console.readLine, Run.bind_apply, Run.take, hline]
    rfl

theorem Console.reader_gives {m : Machine} {content : String}
    (h : m.input.pending = Text.encode content) :
    reader.Gives m (Text.linesOf content) := reader_takes.gives h

end LineBasic
