import LineBasic.Proofs.Surroundings

/-!
# Source text with its modules inlined

Reading goes through a list that is known before anything is placed: the statements of the text,
those of modules in place of their uses, and a fault wherever there is no statement. What is read of
it is the part before the first entry that cannot be placed, and an entry that is placed at the top
level is handed out once.

* `Entry` : a statement with its line, or a fault; `Entry.ofText`, `Entry.ofUse` :
  those of a text and of a use.
* `Progress.read` : entries placed up to the first that fails.
* `Reading.text_eq_read`, `Reader.parse_eq_read` : reading a text is reading its entries.
* `Progress.read_failed` : what a reading that fails has done.
* `Progress.Hands` : the nodes that are handed out are those that are new at the top level.
* `Reader.Call`, `Reader.after` : pieces, and constructs that are dropped, one after another.
-/

namespace LineBasic

/-- What source text has at some place: a statement, or the reason why there is none. -/
inductive Entry where
  | statement (p : Placement)
  | fault (e : Error)

namespace Entry

/-- Places an entry, if it is a statement that can be placed. -/
def place (d : Draft) : Entry → Except Error (Draft × Option Node)
  | statement p => (d.place p.1 p.2).mapError (.grammatical p.1)
  | fault e => .error e

/-- Only statements can be placed. -/
theorem place_eq_ok {d : Draft} {e : Entry} {r : Draft × Option Node} :
    e.place d = .ok r ↔ ∃ p, e = .statement p ∧ d.place p.1 p.2 = .ok r := by
  cases e with
  | fault f => simp [place]
  | statement p => cases hp : d.place p.1 p.2 <;> simp [place, hp, Except.mapError]

/-- The entries of a line, given those of uses. -/
def ofTokens (use : String → Nat → List Entry) (ts : List Token) : List Entry :=
  match ts with
  | [] => []
  | t :: _ =>
    if t.kind.endsLine then []
    else
      match Rule.statement ts with
      | .error f => [.fault (.grammatical t.line f)]
      | .ok (.use name, _) => use name t.line
      | .ok (s, _) => [.statement (t.line, s)]

/-- The entries of a text; a lexical fault is all that there is of it. -/
def ofText (use : String → Nat → List Entry) (first : Nat) (source : String) : List Entry :=
  match (scan first source).error with
  | some e => [.fault (.lexical e)]
  | none => (splitLines (scan first source).tokens).flatMap (ofTokens use)

/-- A library or a script, which stands for itself. -/
def ofUnit (line : Nat) (what : Inclusion) : List Entry :=
  [.statement (line, .simple (.plain (.inclusion what) []))]

/-- The entries of a use inside the modules `within`. -/
def ofUse (catalog : Catalog) : Nat → List String → String → Nat → List Entry
  | 0, _ => fun name line => [.fault (.grammatical line (.circularUse name))]
  | depth + 1, within => fun name line =>
    if within.contains name then [.fault (.grammatical line (.circularUse name))]
    else
      match catalog.lookup name with
      | some (.error f) => [.fault (.disk f)]
      | some (.ok (.source _ source)) => ofText (ofUse catalog depth (name :: within)) 1 source
      | found =>
        match Bundle.ofName? name, found with
        | some _, _ => ofUnit line (.library name)
        | none, some (.ok (.script path)) => ofUnit line (.script path)
        | none, _ => [.fault (.moduleNotFound name)]

/-- The entries of a piece of the program itself. -/
def ofPiece (catalog : Catalog) (first : Nat) (source : String) : List Entry :=
  ofText (ofUse catalog (catalog.length + 1) []) first source

end Entry

/-! ### Reading entries -/

namespace Progress

/-- Places entries up to the first that fails. -/
def read : List Entry → Progress → Reading
  | [], p => (p, none)
  | e :: es, p =>
    match e.place p.draft with
    | .ok r => read es (p.advance r)
    | .error f => (p, some f)

theorem read_append (es es' : List Entry) (p : Progress) :
    read (es ++ es') p =
      match read es p with
      | (q, none) => read es' q
      | (q, some f) => (q, some f) := by
  induction es generalizing p with
  | nil => rfl
  | cons e es ih =>
    simp only [List.cons_append, read]
    cases e.place p.draft with
    | ok r => exact ih (p.advance r)
    | error f => rfl

/-- A reading that fails has placed the statements before an entry that cannot
be placed after them. -/
theorem read_failed {es : List Entry} {p q : Progress} {f : Error} (h : read es p = (q, some f)) :
    ∃ before item after, es = before.map .statement ++ item :: after ∧
      Draft.placeAll? before p.draft = some q.draft ∧ item.place q.draft = .error f := by
  induction es generalizing p with
  | nil => cases h
  | cons e es ih =>
    simp only [read] at h
    cases he : e.place p.draft with
    | error f' =>
      rw [he] at h
      obtain ⟨rfl, rfl⟩ : p = q ∧ f' = f := by simpa using h
      exact ⟨[], e, es, rfl, rfl, he⟩
    | ok r =>
      rw [he] at h
      obtain ⟨before, item, after, rfl, hplaced, hitem⟩ := ih h
      obtain ⟨s, rfl, hs⟩ := Entry.place_eq_ok.1 he
      rw [advance_draft] at hplaced
      exact ⟨s :: before, item, after, rfl, by simp only [Draft.placeAll?, hs, hplaced], hitem⟩

/-- What happens between two states of progress: the top-level nodes that are new in the draft are
handed out. -/
def Hands (p q : Progress) (new : List Node) : Prop :=
  q.draft.done.toList = p.draft.done.toList ++ new ∧ q.handed.toList = p.handed.toList ++ new

end Progress

namespace Draft

variable {d : Draft}

theorem attach_done (d : Draft) (n : Node) :
    (d.attach n).1.done.toList = d.done.toList ++ (d.attach n).2.toList := by
  obtain ⟨done, _ | ⟨b, bs⟩⟩ := d <;> simp [attach]

theorem nextBranch_done {word : String} {fallback : Bool} {guard : Node} {line : Nat} {d' : Draft}
    (h : d.nextBranch word fallback guard line = .ok d') : d'.done = d.done := by
  unfold nextBranch at h
  split at h
  · split at h <;> cases h
    rfl
  · cases h

theorem close_done {closer : Closer} {r : Draft × Option Node} (h : d.close closer = .ok r) :
    r.1.done.toList = d.done.toList ++ r.2.toList := by
  unfold close at h
  split at h
  · split at h <;> cases h
    exact attach_done ..
  · cases h

theorem closeDo_done {again : Node} {r : Draft × Option Node} (h : d.closeDo again = .ok r) :
    r.1.done.toList = d.done.toList ++ r.2.toList := by
  unfold closeDo at h
  split at h
  · split at h <;> cases h
    exact attach_done ..
  · cases h

theorem closeFor_done {named : Option String} {r : Draft × Option Node}
    (h : d.closeFor named = .ok r) : r.1.done.toList = d.done.toList ++ r.2.toList := by
  unfold closeFor at h
  split at h
  · split at h
    · split at h
      · cases h
        exact attach_done ..
      · split at h <;> cases h
        exact attach_done ..
    · cases h
  · cases h

theorem placeJump_done {j : Jump} {kind : LoopKind} {r : Draft × Option Node}
    (h : d.placeJump j kind = .ok r) : r.1.done.toList = d.done.toList ++ r.2.toList := by
  unfold placeJump at h
  split at h <;> cases h
  exact attach_done ..

theorem placeReturn_done {value : Option Node} {r : Draft × Option Node}
    (h : d.placeReturn value = .ok r) : r.1.done.toList = d.done.toList ++ r.2.toList := by
  unfold placeReturn at h
  split at h <;> cases h
  exact attach_done ..

/-- A statement hands out the top-level node that it finishes, and no other. -/
theorem place_done {line : Nat} {s : Statement} {r : Draft × Option Node}
    (h : d.place line s = .ok r) : r.1.done.toList = d.done.toList ++ r.2.toList := by
  cases s with
  | simple n =>
    cases h
    exact attach_done d n
  | elseIf guard =>
    simp only [place] at h
    cases hnext : d.nextBranch "ELSEIF" false guard line with
    | error f => simp [hnext, Except.map] at h
    | ok d' =>
      rw [hnext] at h
      cases h
      simp [nextBranch_done hnext]
  | otherwise =>
    simp only [place] at h
    cases hnext : d.nextBranch "ELSE" true (.literal (.bool true)) line with
    | error f => simp [hnext, Except.map] at h
    | ok d' =>
      rw [hnext] at h
      cases h
      simp [nextBranch_done hnext]
  | close closer => exact close_done h
  | loop guard => exact closeDo_done h
  | next named => exact closeFor_done h
  | jump j kind => exact placeJump_done h
  | giveBack value => exact placeReturn_done h
  | _ =>
    cases h
    simp [enter]

end Draft

theorem Entry.place_done {d : Draft} {e : Entry} {r : Draft × Option Node}
    (h : e.place d = .ok r) : r.1.done.toList = d.done.toList ++ r.2.toList := by
  obtain ⟨s, rfl, hs⟩ := place_eq_ok.1 h
  exact Draft.place_done hs

namespace Progress

theorem advance_handed (p : Progress) (r : Draft × Option Node) :
    (p.advance r).handed.toList = p.handed.toList ++ r.2.toList := by
  obtain ⟨d, _ | n⟩ := r <;> simp [advance]

/-- Whether it fails or not, reading hands out all that is new at the top level. -/
theorem read_hands {es : List Entry} {p q : Progress} {f? : Option Error}
    (h : read es p = (q, f?)) : ∃ new, p.Hands q new := by
  induction es generalizing p with
  | nil =>
    cases h
    exact ⟨[], by simp [Hands]⟩
  | cons e es ih =>
    simp only [read] at h
    cases he : e.place p.draft with
    | error f =>
      rw [he] at h
      cases h
      exact ⟨[], by simp [Hands]⟩
    | ok r =>
      rw [he] at h
      obtain ⟨new, hdone, hhanded⟩ := ih h
      refine ⟨r.2.toList ++ new, ?_, ?_⟩
      · rw [hdone, advance_draft, Entry.place_done he, List.append_assoc]
      · rw [hhanded, advance_handed, List.append_assoc]

end Progress

/-! ### Reading a text is reading its entries -/

/-- Entries say what an includer reads. -/
def Includer.Reads (use : Includer) (entries : String → Nat → List Entry) : Prop :=
  ∀ name line p, use name line p = p.read (entries name line)

namespace Reading

variable {use : Includer} {entries : String → Nat → List Entry}

theorem line_eq_read (h : use.Reads entries) (ts : List Token) (p : Progress) :
    line use ts p = p.read (Entry.ofTokens entries ts) := by
  cases ts with
  | nil => rfl
  | cons t ts =>
    simp only [line, Entry.ofTokens]
    split
    · rfl
    · obtain f | ⟨s, rest⟩ := Rule.statement (t :: ts)
      · rfl
      · cases s
        case use name => exact h name t.line p
        all_goals
          simp only [Progress.read, Entry.place]
          generalize p.draft.place t.line _ = placed
          cases placed <;> rfl

theorem lines_eq_read (h : use.Reads entries) (ls : List (List Token)) (p : Progress) :
    lines use ls p = p.read (ls.flatMap (Entry.ofTokens entries)) := by
  induction ls generalizing p with
  | nil => rfl
  | cons l ls ih =>
    rw [List.flatMap_cons, Progress.read_append, ← line_eq_read h, lines]
    obtain ⟨q, _ | f⟩ := line use l p
    · exact ih q
    · rfl

theorem text_eq_read (h : use.Reads entries) (first : Nat) (source : String) (p : Progress) :
    text use first source p = p.read (Entry.ofText entries first source) := by
  simp only [text, Entry.ofText]
  cases (scan first source).error with
  | some e => rfl
  | none => exact lines_eq_read h _ p

theorem includeModule_reads (catalog : Catalog) (depth : Nat) (within : List String) :
    (includeModule catalog depth within).Reads (Entry.ofUse catalog depth within) := by
  induction depth generalizing within with
  | zero => exact fun _ _ _ => rfl
  | succ depth ih =>
    intro name line p
    simp only [includeModule, Entry.ofUse]
    split
    · rfl
    · obtain _ | (fault | (⟨path, text⟩ | path)) := catalog.lookup name
      · cases Bundle.ofName? name <;> rfl
      · rfl
      · exact text_eq_read (ih (name :: within)) 1 text p
      · cases Bundle.ofName? name <;> rfl

theorem piece_eq_read (catalog : Catalog) (first : Nat) (source : String) (d : Draft) :
    piece catalog first source d = Progress.read (Entry.ofPiece catalog first source) ⟨d, #[]⟩ :=
  text_eq_read (includeModule_reads catalog (catalog.length + 1) []) first source ⟨d, #[]⟩

end Reading

namespace Reader

variable {catalog : Catalog} {source : String} {r r' : Reader}

theorem parse_line (catalog : Catalog) (source : String) (r : Reader) :
    (r.parse catalog source).1.line = r.line + max 1 (Text.lineCount source) := by
  unfold parse
  obtain ⟨p, _ | e⟩ := Reading.piece catalog r.line source r.draft <;> rfl

/-- A piece with a lexical fault only counts its lines. -/
theorem parse_lexical (catalog : Catalog) {fault : LexError}
    (h : (scan r.line source).error = some fault) :
    r.parse catalog source =
      (⟨r.draft, r.line + max 1 (Text.lineCount source)⟩, .error (.lexical fault)) := by
  simp only [parse, Reading.piece, Reading.text, h]

/-- A piece that can be read hands out all that it adds at the top level. -/
theorem parse_ok {nodes : List Node} (h : r.parse catalog source = (r', .ok nodes)) :
    r'.draft.done.toList = r.draft.done.toList ++ nodes := by
  simp only [parse] at h
  obtain ⟨⟨p, _ | e⟩, hread⟩ : ∃ read,
    Reading.piece catalog r.line source r.draft = read := ⟨_, rfl⟩
  · rw [hread] at h
    cases h
    rw [Reading.piece_eq_read] at hread
    obtain ⟨new, hdone, hhanded⟩ := Progress.read_hands hread
    rw [hdone, hhanded]
    rfl
  · rw [hread] at h
    cases h

/-- A piece that cannot be read adds the statements before the entry that fails. -/
theorem parse_error {e : Error} (h : r.parse catalog source = (r', .error e)) :
    (∃ before item after,
      Entry.ofPiece catalog r.line source = before.map .statement ++ item :: after ∧
      Draft.placeAll? before r.draft = some r'.draft ∧ item.place r'.draft = .error e) ∧
    ∃ lost, r'.draft.done.toList = r.draft.done.toList ++ lost := by
  simp only [parse] at h
  obtain ⟨⟨p, _ | e⟩, hread⟩ : ∃ read,
    Reading.piece catalog r.line source r.draft = read := ⟨_, rfl⟩
  · rw [hread] at h
    cases h
  · rw [hread] at h
    cases h
    rw [Reading.piece_eq_read] at hread
    obtain ⟨lost, hdone, -⟩ := Progress.read_hands hread
    exact ⟨Progress.read_failed hread, lost, hdone⟩

/-! ### Calls -/

/-- What is asked of a reader from outside. -/
inductive Call where
  | parse (catalog : Catalog) (source : String)
  | abandon

/-- The reader after a call, and its answer. -/
def Call.run : Call → Reader → Reader × Except Error (List Node)
  | parse catalog source, r => r.parse catalog source
  | abandon, r => (r.abandon, .ok [])

/-- The reader after calls. -/
def after : List Call → Reader → Reader
  | [], r => r
  | c :: cs, r => after cs (c.run r).1

end Reader
end LineBasic
