import Mathlib.Data.List.TakeWhile
import Mathlib.Logic.Relation
import LineBasic.Proofs.LineNumbers
import LineBasic.Proofs.Pieces

/-!
# Modules as text

A use of a source module is read as the text of the module. Two things make this more than a reading
of the definition. Inside a module, the names of the modules around it may not be used again, and in
place of the use they may; and the numbers of the lines are different.

* `Catalog.Mentions` : a line of one module uses another one.
* `Progress.Readable.acyclic` : a module that can be read does not lead back to a module that
  mentions it. So what may not be used again is not used again.
* `Progress.ofCatalog_transfer` : the same module read in two situations.
* `Reader.use_is_inlining` : the line `USE M`, and the text of `M` in its place.
-/

namespace LineBasic

/-! ### Things inside each other -/

/-- One more name leaves less of what has none of the names. -/
theorem length_filter_notMem_cons_lt {α : Type} (name : α → String) {l : List α} {a : α}
    {names : List String} (h : a ∈ l) (new : name a ∉ names) :
    (l.filter fun b => name b ∉ name a :: names).length <
      (l.filter fun b => name b ∉ names).length := by
  have hfilter : (l.filter fun b => name b ∉ name a :: names) =
      (l.filter fun b => name b ∉ names).filter fun b => name b ≠ name a := by
    rw [List.filter_filter]
    congr 1
    funext b
    simp
  rw [hfilter, List.length_filter_lt_length_iff_exists]
  exact ⟨a, by simp [h, new], by simp⟩

section Entered

variable {α : Type} {entered : List α → α → Prop} {next : α → α → Prop} {within : List α} {a b : α}

/-- If one comes from a thing to the next ones only inside it, one comes to all
others only inside it. -/
theorem exists_entered
    (inward : ∀ {within a b}, entered within a → next a b → entered (a :: within) b)
    (h : entered within a) (hab : Relation.ReflTransGen next a b) :
    ∃ within', entered within' b ∧ (a = b ∨ a ∈ within') := by
  induction hab with
  | refl => exact ⟨within, h, .inl rfl⟩
  | @tail b c _ hbc ih =>
    obtain ⟨within', hb, ha⟩ := ih
    refine ⟨b :: within', inward hb hbc, .inr ?_⟩
    rcases ha with rfl | ha
    · exact .head _
    · exact .tail _ ha

/-- If nothing is entered inside itself, nothing that is entered leads back to itself. -/
theorem not_transGen_of_entered (apart : ∀ {within a}, entered within a → a ∉ within)
    (inward : ∀ {within a b}, entered within a → next a b → entered (a :: within) b)
    (h : entered within a) : ¬ Relation.TransGen next a a := by
  intro hback
  obtain ⟨b, hab, hba⟩ := Relation.TransGen.tail'_iff.1 hback
  obtain ⟨within', hb, ha⟩ := exists_entered inward h hab
  refine apart (inward hb hba) ?_
  rcases ha with rfl | ha
  · exact .head _
  · exact .tail _ ha

end Entered

/-! ### Modules inside modules -/

/-- The text of a module has a line that uses another one. -/
def Catalog.Mentions (catalog : Catalog) (a b : String) : Prop :=
  ∃ text ss, catalog.source? a = some text ∧ statementsOf? text.toList = some ss ∧
    some (Statement.use b) ∈ ss

/-- The entries of a catalog that are not among names. -/
def Catalog.room (catalog : Catalog) (names : List String) : Nat :=
  (catalog.filter fun e => e.1 ∉ names).length

theorem Catalog.mem_of_source? {catalog : Catalog} {name text : String}
    (h : catalog.source? name = some text) : ∃ e ∈ catalog, e.1 = name := by
  unfold source? at h
  split at h
  · next path text' hlookup =>
    obtain ⟨l, r, rfl, -⟩ := List.lookup_eq_some_iff.1 hlookup
    exact ⟨_, List.mem_append_right _ (.head _), rfl⟩
  · cases h

theorem Catalog.room_cons {catalog : Catalog} {name text : String} {names : List String}
    (h : catalog.source? name = some text) (new : name ∉ names) :
    catalog.room (name :: names) < catalog.room names := by
  obtain ⟨e, he, rfl⟩ := mem_of_source? h
  exact length_filter_notMem_cons_lt Prod.fst he new

namespace Progress

variable {catalog : Catalog}

/-- A use of a name can be read somewhere, inside other modules. -/
def Readable (catalog : Catalog) (within : List String) (name : String) : Prop :=
  ∃ depth line p q, Uses.ofCatalog catalog depth within name line p = some q

theorem Readable.not_mem {within : List String} {name : String}
    (h : Readable catalog within name) : name ∉ within := by
  obtain ⟨_ | depth, line, p, q, h⟩ := h
  · cases h
  · rw [ofCatalog_succ] at h
    split at h
    · cases h
    · next hnew => exact hnew

/-- All uses among statements that can be placed are read. -/
theorem exists_of_steps {use : Uses} {line : Nat} {ss : List (Option Statement)} {p q : Progress}
    {name : String} (h : steps use line ss p = some q) (hmem : some (Statement.use name) ∈ ss) :
    ∃ line' p' q', use name line' p' = some q' := by
  induction ss generalizing line p with
  | nil => cases hmem
  | cons s ss ih =>
    obtain ⟨p', hstep, hrest⟩ := Option.bind_eq_some_iff.1 h
    rcases List.mem_cons.1 hmem with rfl | hmem
    · exact ⟨line, p, p', hstep⟩
    · exact ih hrest hmem

/-- Other uses do as well, if they read what these statements use. -/
theorem steps_mono {use use' : Uses} {line : Nat} {ss : List (Option Statement)} {p q : Progress}
    (hu : ∀ name line p q, some (Statement.use name) ∈ ss → use name line p = some q →
      use' name line p = some q)
    (h : steps use line ss p = some q) : steps use' line ss p = some q := by
  induction ss generalizing line p with
  | nil => exact h
  | cons s ss ih =>
    obtain ⟨p', hstep, hrest⟩ := Option.bind_eq_some_iff.1 h
    refine Option.bind_eq_some_iff.2 ⟨p', ?_, ih (fun n l p q hn => hu n l p q (.tail _ hn)) hrest⟩
    rcases s with _ | s
    · exact hstep
    · cases s
      case use name => exact hu name line p p' (.head _) hstep
      all_goals exact hstep

theorem Readable.mentions {within : List String} {a b : String} (h : Readable catalog within a)
    (hab : catalog.Mentions a b) : Readable catalog (a :: within) b := by
  obtain ⟨text, ss, hsource, hss, hmem⟩ := hab
  obtain ⟨_ | depth, line, p, q, h⟩ := h
  · cases h
  · rw [ofCatalog_succ] at h
    split at h
    · cases h
    · simp only [hsource, hss, Option.bind_some] at h
      obtain ⟨line', p', q', h'⟩ := exists_of_steps h hmem
      exact ⟨depth, line', p', q', h'⟩

/-- A module that can be read does not come back to one that mentions it. -/
theorem Readable.acyclic {within : List String} {a name : String} (h : Readable catalog within a)
    (hname : catalog.Mentions name a) : ¬ Relation.ReflTransGen catalog.Mentions a name :=
  fun hreach => not_transGen_of_entered Readable.not_mem Readable.mentions h (.tail' hreach hname)

/-- What can be read in one situation can be read in another one, if the two stay related on the way
from a module to those it mentions. -/
theorem ofCatalog_transfer (related : Nat → List String → Nat → List String → String → Prop)
    (inward : ∀ depth within depth' within' name,
      related (depth + 1) within depth' within' name → name ∉ within →
      name ∉ within' ∧ ∃ k, depth' = k + 1 ∧ ∀ b, catalog.Mentions name b →
        related depth (name :: within) k (name :: within') b)
    {depth depth' : Nat} {within within' : List String} {name : String} {line : Nat}
    {p q : Progress} (start : related depth within depth' within' name)
    (h : Uses.ofCatalog catalog depth within name line p = some q) :
    Uses.ofCatalog catalog depth' within' name line p = some q := by
  induction depth generalizing depth' within within' name line p q with
  | zero => cases h
  | succ depth ih =>
    rw [ofCatalog_succ] at h
    split at h
    · cases h
    · next hnew =>
      obtain ⟨hnew', k, rfl, hinner⟩ := inward _ _ _ _ _ start hnew
      rw [ofCatalog_succ, if_neg hnew']
      cases hsource : catalog.source? name with
      | none =>
        simp only [hsource] at h
        exact h
      | some text =>
        simp only [hsource] at h
        obtain ⟨ss, hss, hsteps⟩ := Option.bind_eq_some_iff.1 h
        refine Option.bind_eq_some_iff.2 ⟨ss, hss, steps_mono (fun b l p q hb => ?_) hsteps⟩
        exact ih (hinner b ⟨text, ss, hsource, hss, hb⟩)

/-- What can be read inside modules can be read outside of them, with more depth. -/
theorem ofCatalog_outside {depth depth' : Nat} {within within' : List String} {name : String}
    {line : Nat} {p q : Progress} (deeper : depth ≤ depth') (fewer : within' ⊆ within)
    (h : Uses.ofCatalog catalog depth within name line p = some q) :
    Uses.ofCatalog catalog depth' within' name line p = some q := by
  refine ofCatalog_transfer (fun d w d' w' _ => d ≤ d' ∧ w' ⊆ w) ?_ ⟨deeper, fewer⟩ h
  rintro d w d' w' name ⟨hd, hw⟩ hnew
  refine ⟨fun hmem => hnew (hw hmem), d' - 1, by omega, fun b _ => ⟨by omega, ?_⟩⟩
  exact List.cons_subset_cons name hw

/-- What can be read can be read inside a further module that it does not lead to. The depth is
enough if there is room for all other modules. -/
theorem ofCatalog_inside {depth depth' : Nat} {within : List String} {outer name : String}
    {line : Nat} {p q : Progress} (room : catalog.room (outer :: within) < depth')
    (apart : ¬ Relation.ReflTransGen catalog.Mentions name outer)
    (h : Uses.ofCatalog catalog depth within name line p = some q) :
    Uses.ofCatalog catalog depth' (outer :: within) name line p = some q := by
  -- no names are refused but `outer` and those before, and each new one leaves less room
  refine ofCatalog_transfer (fun _ w d' w' name => catalog.room w' < d' ∧
    w' ⊆ outer :: w ∧ ¬ Relation.ReflTransGen catalog.Mentions name outer) ?_
    ⟨room, List.Subset.refl _, apart⟩ h
  rintro d w d' w' name ⟨hroom, hw, hapart⟩ hnew
  have hnew' : name ∉ w' := by
    intro hmem
    rcases List.mem_cons.1 (hw hmem) with rfl | hmem
    · exact hapart .refl
    · exact hnew hmem
  refine ⟨hnew', d' - 1, by omega, fun b hb => ⟨?_, ?_, fun hreach => hapart (.head hb hreach)⟩⟩
  · obtain ⟨text, ss, hsource, -⟩ := hb
    have hless := Catalog.room_cons hsource hnew'
    omega
  · intro c hc
    rcases List.mem_cons.1 hc with rfl | hc
    · exact .tail _ (.head _)
    · rcases List.mem_cons.1 (hw hc) with rfl | hc
      · exact .head _
      · exact .tail _ (.tail _ hc)

/-- The text of a module says the same inside the module and in place of its use. -/
theorem steps_inlined {name text : String} {ss : List (Option Statement)} (line : Nat)
    (p : Progress) (hsource : catalog.source? name = some text)
    (hss : statementsOf? text.toList = some ss) :
    steps (.ofCatalog catalog catalog.length [name]) line ss p =
      steps (.ofCatalog catalog (catalog.length + 1) []) line ss p := by
  refine Option.ext fun q => ⟨fun h => ?_, fun h => ?_⟩
  -- in place of the use, nothing is refused that may be used inside the module
  · refine steps_mono (fun b l p q _ hb => ?_) h
    exact ofCatalog_outside (Nat.le_succ _) (List.nil_subset _) hb
  -- inside the module, its own name is refused: no use that can be read leads back to it
  · refine steps_mono (fun b l p q hmem hb => ofCatalog_inside ?_ ?_ hb) h
    · have hless : catalog.room [name] < catalog.room [] :=
        Catalog.room_cons hsource (List.not_mem_nil)
      have hall : catalog.room [] ≤ catalog.length := List.length_filter_le ..
      omega
    · exact Readable.acyclic ⟨_, l, p, q, hb⟩ ⟨text, ss, hsource, hss, hmem⟩

end Progress

/-! ### A line that uses a module -/

/-- The line `USE M` says that the module `M` is used, in upper case. -/
theorem statementOf?_use {name : String} (h : Text.isName name = true) :
    statementOf? ("USE " ++ name).toList = some (some (.use (Text.upperCase name))) := by
  unfold Text.isName at h
  split at h
  · cases h
  · next c cs hname =>
    simp only [Bool.and_eq_true] at h
    obtain ⟨⟨hstart, hparts⟩, hkeyword⟩ := h
    have hkey : Keyword.ofText? (Text.upperCase name) = none := by simpa using hkeyword
    have htext : ("USE " ++ name).toList = 'U' :: 'S' :: 'E' :: ' ' :: c :: cs := by
      simp [hname]
    have htake : cs.takeWhile Text.isNamePart = cs :=
      List.takeWhile_eq_self_iff.2 (List.all_eq_true.1 hparts)
    have hofList : String.ofList (c :: cs) = name := by rw [← hname, String.ofList_toList]
    have hscan : scanFrom ⟨1, 0⟩ ("USE " ++ name).toList =
        ⟨[⟨.word .useWord, "USE", 1, 0, .nothing⟩, ⟨.name, Text.upperCase name, 1, 4, .nothing⟩,
          ⟨.finish, "", 1, 4 + (cs.length + 1), .nothing⟩], 1, none⟩ := by
      -- three pieces: the word, the blank after it, and the name
      have hupper : Text.upperCase "USE" = "USE" := by decide
      have hword : Piece.name 'U' ('S' :: 'E' :: ' ' :: c :: cs) =
          .token (.word .useWord) 2 .nothing := by
        have hmore : ('S' :: 'E' :: ' ' :: c :: cs).takeWhile Text.isNamePart = ['S', 'E'] := rfl
        unfold Piece.name
        rw [hmore]
        decide
      have hmodule : Piece.name c cs = .token .name cs.length .nothing := by
        simp [Piece.name, htake, hofList, hkey, Piece.plain]
      rw [htext, scanFrom_cons, piece_of_isNameStart (by decide), hword]
      simp only [List.drop_succ_cons, List.drop_zero]
      rw [scanFrom_cons, show piece ' ' (c :: cs) = .blank 0 from rfl]
      simp only [List.drop_zero]
      rw [scanFrom_cons, piece_of_isNameStart hstart, hmodule]
      simp only [List.drop_length, scanFrom_nil, List.take_length]
      simp [Scan.cons, lexemeOf, hofList, Position.after, hupper]
    unfold statementOf?
    rw [hscan]
    rfl

theorem statementsOf?_use {name : String} (h : Text.isName name = true) :
    statementsOf? ("USE " ++ name).toList = some [some (.use (Text.upperCase name))] := by
  rw [statementsOf?_of_not_mem, statementOf?_use h]
  · rfl
  · unfold Text.isName at h
    split at h
    · cases h
    · next c cs hname =>
      simp only [Bool.and_eq_true, List.all_eq_true] at h
      intro hmem
      rw [String.toList_append, hname] at hmem
      simp only [List.mem_append, List.mem_cons] at hmem
      rcases hmem with hmem | rfl | hmem
      · exact absurd hmem (by decide)
      · exact absurd h.1.1 (by decide)
      · exact absurd (h.1.2 _ hmem) (by decide)

/-! ### Inlining -/

/-- What a text says before a point at which a line starts. -/
theorem exists_statements_before {before : List Char}
    (h : before = [] ∨ before.getLast? = some '\n') :
    ∃ ss? : Option (List (Option Statement)), ∀ cs, statementsOf? (before ++ cs) =
      ss?.bind fun ss => (statementsOf? cs).map fun ss' => ss ++ ss' := by
  rcases h with rfl | h
  · exact ⟨some [], fun cs => by simp⟩
  · obtain ⟨b, rfl⟩ := List.getLast?_eq_some_iff.1 h
    refine ⟨statementsOf? b, fun cs => ?_⟩
    rw [List.append_assoc]
    exact statementsOf?_append b cs

namespace Progress

variable {catalog : Catalog}

/-- A use of a module places the statements of its text as those of the program itself. -/
theorem uses_source {name text : String} (hsource : catalog.source? name = some text) (line : Nat)
    (p : Progress) :
    Reader.uses catalog name line p =
      (statementsOf? text.toList).bind fun ss => steps (Reader.uses catalog) 1 ss p := by
  rw [Reader.uses, ofCatalog_succ, if_neg List.not_mem_nil, hsource]
  cases hss : statementsOf? text.toList with
  | none => simp only [hss, Option.bind_none]
  | some ss =>
    simp only [hss, Option.bind_some]
    exact steps_inlined 1 p hsource hss

/-- The statements of a module in place of its use, among others. -/
theorem steps_use {name text : String} {body : List Char}
    (hsource : catalog.source? name = some text)
    (hbody : text.toList = body ++ ['\n'] ∨ text.toList = body ∧ body.getLast? ≠ some '\n')
    (line : Nat) (before after : List (Option Statement)) (p : Progress) :
    (steps (Reader.uses catalog) line (before ++ some (.use name) :: after) p).map unnumbered =
      ((statementsOf? body).bind fun ss =>
        steps (Reader.uses catalog) line (before ++ (ss ++ after)) p).map unnumbered := by
  have hblind : (Reader.uses catalog).Blind := ofCatalog_blind catalog (catalog.length + 1) []
  have huse : ∀ q, Reader.uses catalog name (line + before.length) q =
      (statementsOf? body).bind fun ss => steps (Reader.uses catalog) 1 ss q := by
    intro q
    rw [uses_source hsource, Reader.steps_body hbody]
  rw [steps_append]
  simp only [steps_append _ line before]
  cases steps (Reader.uses catalog) line before p with
  | none => simp
  | some q =>
    simp only [Option.bind_some]
    show ((Reader.uses catalog name (line + before.length) q).bind _).map _ = _
    rw [huse]
    cases statementsOf? body with
    | none => rfl
    | some ss =>
      simp only [Option.bind_some, steps_append]
      exact bind_blind (steps_blind hblind _ _ rfl ss) fun s s' hs =>
        steps_blind hblind _ _ hs after

end Progress

namespace Reader

variable {catalog : Catalog}

/-- What a piece leads to, apart from line numbers. -/
theorem parse?_unnumbered (r : Reader) (s : String) :
    ((r.parse? catalog s).map fun read => (read.1.draft.unnumbered, read.2)) =
      (((statementsOf? s.toList).bind fun ss =>
        Progress.steps (uses catalog) r.line ss ⟨r.draft, #[]⟩).map Progress.unnumbered).map
          fun p => (p.draft, p.handed.toList) := by
  rw [parse?_eq, Option.map_map, Option.map_map]
  rfl

/-- A line that uses a module of source text can be replaced by that text. Both texts can be read or
neither is, from every state of the reader and with the line at any point. Then the same nodes are
handed out, and the tree and the open constructs are the same but for the numbers of lines. -/
theorem use_is_inlining (catalog : Catalog) (r : Reader) (before name rest after : String)
    {text : String} (named : Text.isName name = true)
    (resolved : catalog.source? (Text.upperCase name) = some text)
    (lineStart : before = "" ∨ before.toList.getLast? = some '\n')
    (lineEnd : rest = "\n" ++ after ∨ rest = "" ∧ after = "") :
    ((r.parse? catalog (before ++ "USE " ++ name ++ rest)).map fun read =>
        (read.1.draft.unnumbered, read.2)) =
      (r.parse? catalog (before ++ Text.terminated text ++ after)).map fun read =>
        (read.1.draft.unnumbered, read.2) := by
  obtain ⟨body, hterminated, hbody⟩ := Text.exists_unterminated text
  have hstart : before.toList = [] ∨ before.toList.getLast? = some '\n' := by
    rcases lineStart with rfl | h
    · exact .inl rfl
    · exact .inr h
  obtain ⟨ss?, hbefore⟩ := exists_statements_before hstart
  rw [parse?_unnumbered, parse?_unnumbered]
  congr 1
  have huse := Progress.steps_use resolved hbody r.line
  have hinlined : statementsOf? (before ++ Text.terminated text ++ after).toList =
      ss?.bind fun sb => ((statementsOf? body).bind fun ss =>
        (statementsOf? after.toList).map fun sa => ss ++ sa).map fun ss => sb ++ ss := by
    rw [← statementsOf?_append, ← hbefore]
    simp [hterminated]
  have hwritten : statementsOf? (before ++ "USE " ++ name ++ rest).toList =
      ss?.bind fun sb => (statementsOf? (("USE " ++ name).toList ++ rest.toList)).map fun ss =>
        sb ++ ss := by
    rw [← hbefore]
    simp
  rw [hinlined, hwritten]
  cases ss? with
  | none => rfl
  | some sb =>
    simp only [Option.bind_some]
    rcases lineEnd with rfl | ⟨rfl, rfl⟩
    · have hrest : ("USE " ++ name).toList ++ ("\n" ++ after).toList =
          ("USE " ++ name).toList ++ '\n' :: after.toList := by simp
      rw [hrest, statementsOf?_append, statementsOf?_use named]
      cases statementsOf? after.toList with
      | none => cases statementsOf? body <;> rfl
      | some sa =>
        refine (huse sb sa _).trans ?_
        cases statementsOf? body <;> rfl
    · rw [String.toList_empty, List.append_nil, statementsOf?_use named, statementsOf?_nil]
      refine (huse sb [] _).trans ?_
      cases statementsOf? body with
      | none => rfl
      | some ss =>
        simp only [Option.bind_some, Option.map_some, List.append_nil]
        rw [← List.append_assoc, Progress.steps_append_none]

/-- A module that opens a loop, used by a program that closes it. -/
theorem use_is_inlining_open_loop :
    (start.parse? [("PART", .ok (.source "part.bas" "WHILE A < 5\nA = A + 1"))]
      ("A = 1\n" ++ "USE " ++ "Part" ++ "\nEXIT WHILE\nWEND")).isSome = true ∧
    ((start.parse? [("PART", .ok (.source "part.bas" "WHILE A < 5\nA = A + 1"))]
      ("A = 1\n" ++ "USE " ++ "Part" ++ "\nEXIT WHILE\nWEND")).map fun read =>
        (read.1.draft.unnumbered, read.2)) =
    (start.parse? [("PART", .ok (.source "part.bas" "WHILE A < 5\nA = A + 1"))]
      ("A = 1\n" ++ Text.terminated "WHILE A < 5\nA = A + 1" ++ "EXIT WHILE\nWEND")).map fun read =>
        (read.1.draft.unnumbered, read.2) :=
  ⟨by decide +kernel,
    use_is_inlining _ start _ "Part" _ _ (by decide) (by decide) (.inr (by decide))
      (.inl (by decide))⟩

end Reader
end LineBasic
