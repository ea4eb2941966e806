import LineBasic.Proofs.Inlining

/-!
# Uses that are followed one by one

Reading goes from the text of a program into the modules that it uses, and from these into further
ones. Here this is done step by step, with a pile of the texts that are being read, and nothing
bounds the number of steps: modules come from any supply, and their texts may use each other in any
way. It comes to an end because a module that is being read is not entered once more, and the supply
has only finitely many of them.

* `Supply` : what names stand for; `Supply.Mentions` : a line of one module uses another one.
* `Supply.including` : uses read with a bound on the depth; `Supply.including_ofCatalog` :
  so it is with a catalog.
* `Page`, `Unfolding` : a text that is being read, and the pile of them;
  `Unfolding.step` : one line of it.
* `Unfolding.step_cases` : all that a step can do. `Unfolding.Traced` : what all steps keep.
* `Unfolding.passes_lines` : the steps through a page are a reading of its lines.
* `inclusion_ends` : all readings end, no module is entered inside itself, and cycles are refused.
-/

namespace LineBasic

/-! ### Supplies of modules -/

/-- What names stand for outside the program. Only finitely many of them stand for source text. -/
structure Supply where
  resolve : String → Option (Except DiskFault Module)
  sources : List String
  complete : ∀ {name path text}, resolve name = some (.ok (.source path text)) → name ∈ sources

/-- A line of tokens that uses a module: its name, and the number of the line. -/
def Tokens.use? (ts : List Token) : Option (String × Nat) :=
  match ts with
  | [] => none
  | t :: _ =>
    if t.kind.endsLine then none
    else
      match Rule.statement ts with
      | .ok (.use name, _) => some (name, t.line)
      | _ => none

/-- Some of the lines uses a module. -/
def Tokens.Uses (ls : List (List Token)) (name : String) : Prop :=
  ∃ l ∈ ls, ∃ line, use? l = some (name, line)

/-- The lines of a text, unless it has a lexical fault. -/
def Tokens.linesOf (first : Nat) (source : String) : Except LexError (List (List Token)) :=
  match (scan first source).error with
  | some e => .error e
  | none => .ok (splitLines (scan first source).tokens)

namespace Reading

/-- Reads a use of what is no source text. -/
def unit (name : String) (found : Option (Except DiskFault Module)) (p : Progress) : Reading :=
  match Bundle.ofName? name, found with
  | some _, _ => (p.add (.plain (.inclusion (.library name)) []), none)
  | none, some (.ok (.script path)) => (p.add (.plain (.inclusion (.script path)) []), none)
  | none, _ => (p, some (.moduleNotFound name))

variable {l : List Token} {name : String} {line : Nat}

theorem line_of_use (use : Includer) (h : Tokens.use? l = some (name, line)) (p : Progress) :
    Reading.line use l p = use name line p := by
  cases l with
  | nil => cases h
  | cons t ts =>
    simp only [Tokens.use?] at h
    simp only [Reading.line]
    split at h
    · cases h
    · split at h
      · next hend _ _ _ hstatement =>
        cases h
        rw [if_neg hend, hstatement]
      · cases h

/-- Other lines are read in the same way whatever is used. -/
theorem line_of_no_use (use use' : Includer) (h : Tokens.use? l = none) (p : Progress) :
    Reading.line use l p = Reading.line use' l p := by
  cases l with
  | nil => rfl
  | cons t ts =>
    simp only [Tokens.use?] at h
    simp only [Reading.line]
    split
    · rfl
    · next hend =>
      rw [if_neg hend] at h
      obtain ⟨f | ⟨s, rest⟩, hstatement⟩ : ∃ read, Rule.statement (t :: ts) = read := ⟨_, rfl⟩
      · rw [hstatement]
      · rw [hstatement] at h ⊢
        cases s
        case use => cases h
        all_goals rfl

theorem text_eq (use : Includer) (first : Nat) (source : String) (p : Progress) :
    text use first source p =
      match Tokens.linesOf first source with
      | .error e => (p, some (.lexical e))
      | .ok ls => lines use ls p := by
  simp only [text, Tokens.linesOf]
  cases (scan first source).error <;> rfl

/-- Reads on, unless there is an error. -/
def andThen (read : Reading) (f : Progress → Reading) : Reading :=
  match read with
  | (q, none) => f q
  | (q, some e) => (q, some e)

theorem lines_cons_eq (use : Includer) (l : List Token) (ls : List (List Token)) (p : Progress) :
    lines use (l :: ls) p = (Reading.line use l p).andThen (lines use ls) := by
  rw [lines]
  obtain ⟨q, _ | e⟩ := Reading.line use l p <;> rfl

/-- All uses among lines that can be read can be read. -/
theorem exists_of_lines {use : Includer} {ls : List (List Token)} {p q : Progress}
    (h : lines use ls p = (q, none)) (hname : Tokens.Uses ls name) :
    ∃ line' p' q', use name line' p' = (q', none) := by
  obtain ⟨l, hl, line, huse⟩ := hname
  induction ls generalizing p with
  | nil => cases hl
  | cons l' ls ih =>
    simp only [lines] at h
    obtain ⟨⟨p', _ | e⟩, hline⟩ : ∃ read, Reading.line use l' p = read := ⟨_, rfl⟩
    · rw [hline] at h
      rcases List.mem_cons.1 hl with rfl | hl
      · exact ⟨line, p, p', line_of_use use huse p ▸ hline⟩
      · exact ih h hl
    · rw [hline] at h
      cases h

end Reading

namespace Supply

/-- The modules of a catalog. -/
def ofCatalog (catalog : Catalog) : Supply where
  resolve name := catalog.lookup name
  sources := catalog.map Prod.fst
  complete h := by
    obtain ⟨l, r, rfl, -⟩ := List.lookup_eq_some_iff.1 h
    simp

/-- Reads a `USE` inside the modules `within`. There is room for `depth` further ones. -/
def including (L : Supply) : Nat → List String → Includer
  | 0, _ => fun name line p => (p, some (.grammatical line (.circularUse name)))
  | depth + 1, within => fun name line p =>
    if name ∈ within then (p, some (.grammatical line (.circularUse name)))
    else
      match L.resolve name with
      | some (.error f) => (p, some (.disk f))
      | some (.ok (.source _ source)) =>
        Reading.text (L.including depth (name :: within)) 1 source p
      | found => Reading.unit name found p

/-- A use of a catalog is read as one of a supply. -/
theorem including_ofCatalog (catalog : Catalog) (depth : Nat) (within : List String) :
    (ofCatalog catalog).including depth within = Reading.includeModule catalog depth within := by
  induction depth generalizing within with
  | zero => rfl
  | succ depth ih =>
    funext name line p
    have hresolve : (ofCatalog catalog).resolve name = catalog.lookup name := rfl
    by_cases hmem : name ∈ within
    · simp only [including, Reading.includeModule, List.contains_iff_mem, hmem, if_true]
    · simp only [including, Reading.includeModule, List.contains_iff_mem, hmem, if_false, hresolve]
      cases catalog.lookup name with
      | none => cases hname : Bundle.ofName? name <;> simp only [Reading.unit, hname]
      | some found =>
        rcases found with fault | (⟨path, text⟩ | path)
        · rfl
        · exact congrFun (congrArg (fun use => Reading.text use 1 text) (ih (name :: within))) p
        · cases hname : Bundle.ofName? name <;> simp only [Reading.unit, hname]

variable (L : Supply)

/-- The text of a module has a line that uses another one. -/
def Mentions (a b : String) : Prop :=
  ∃ path text ls, L.resolve a = some (.ok (.source path text)) ∧ Tokens.linesOf 1 text = .ok ls ∧
    Tokens.Uses ls b

/-- A use of a name can be read somewhere, inside other modules. -/
def Readable (within : List String) (name : String) : Prop :=
  ∃ depth line p q, L.including depth within name line p = (q, none)

/-- The number of modules of source text that are not among names. -/
def room (names : List String) : Nat := (L.sources.filter fun name => name ∉ names).length

variable {L}

theorem Readable.not_mem {within : List String} {name : String} (h : L.Readable within name) :
    name ∉ within := by
  obtain ⟨_ | depth, line, p, q, h⟩ := h
  · cases h
  · simp only [including] at h
    split at h
    · cases h
    · next hnew => exact hnew

theorem Readable.mentions {within : List String} {a b : String} (h : L.Readable within a)
    (hab : L.Mentions a b) : L.Readable (a :: within) b := by
  obtain ⟨path, text, ls, hsource, hlines, huse⟩ := hab
  obtain ⟨_ | depth, line, p, q, h⟩ := h
  · cases h
  · simp only [including, hsource, Reading.text_eq, hlines] at h
    split at h
    · cases h
    · obtain ⟨line', p', q', h'⟩ := Reading.exists_of_lines h huse
      exact ⟨depth, line', p', q', h'⟩

theorem room_cons {name path text : String} {names : List String}
    (h : L.resolve name = some (.ok (.source path text))) (new : name ∉ names) :
    L.room (name :: names) < L.room names :=
  length_filter_notMem_cons_lt id (L.complete h) new

end Supply

/-! ### Pages -/

/-- A text that is being read: its module, if it is not the piece itself, and
the lines that are left. -/
structure Page where
  module? : Option String
  lines : Except LexError (List (List Token))

/-- A pile of texts, the innermost first, with the progress made, and with the uses that were
followed: from where, and to which module. -/
structure Unfolding where
  pages : List Page
  progress : Progress
  followed : List (Option String × String)

namespace Unfolding

/-- The modules that are being read. -/
def names (s : Unfolding) : List String := s.pages.filterMap Page.module?

/-- The use in the line that is read next, if it is one. -/
def use? (s : Unfolding) : Option (String × Nat) :=
  s.pages.head?.bind fun page => page.lines.toOption.bind fun ls => ls.head?.bind Tokens.use?

/-- A piece of source text that is given to a reader. -/
def start (r : Reader) (source : String) : Unfolding where
  pages := [⟨none, Tokens.linesOf r.line source⟩]
  progress := ⟨r.draft, #[]⟩
  followed := []

/-- With other progress, unless there is an error. -/
def goOn (s : Unfolding) : Reading → Reading ⊕ Unfolding
  | (p, some e) => .inl (p, some e)
  | (p, none) => .inr { s with progress := p }

/-- One more page, for a module that is used on a page. -/
def enter (s : Unfolding) (user : Option String) (name text : String) : Unfolding :=
  { s with
    pages := ⟨some name, Tokens.linesOf 1 text⟩ :: s.pages, followed := (user, name) :: s.followed }

/-- Reads a line, which is no longer on the page of `user`. -/
def atLine (L : Supply) (user : Option String) (l : List Token) (s : Unfolding) :
    Reading ⊕ Unfolding :=
  match Tokens.use? l with
  | none => s.goOn (Reading.line (fun _ _ p => (p, none)) l s.progress)
  | some (name, line) =>
    if name ∈ s.names then .inl (s.progress, some (.grammatical line (.circularUse name)))
    else
      match L.resolve name with
      | some (.error f) => .inl (s.progress, some (.disk f))
      | some (.ok (.source _ text)) => .inr (s.enter user name text)
      | found => s.goOn (Reading.unit name found s.progress)

/-- Reads the next line, or takes a page away that is read. With no page left, or
with an error, it ends. -/
def step (L : Supply) (s : Unfolding) : Reading ⊕ Unfolding :=
  match s.pages with
  | [] => .inl (s.progress, none)
  | page :: below =>
    match page.lines with
    | .error e => .inl (s.progress, some (.lexical e))
    | .ok [] => .inr { s with pages := below }
    | .ok (l :: ls) =>
      atLine L page.module? l { s with pages := { page with lines := .ok ls } :: below }

/-- From one state to another one by steps. -/
abbrev Visits (L : Supply) : Unfolding → Unfolding → Prop :=
  Relation.ReflTransGen fun s s' => s.step L = .inr s'

/-- A reading comes to an end. -/
def Ends (L : Supply) (s : Unfolding) (r : Reading) : Prop :=
  ∃ s', Visits L s s' ∧ s'.step L = .inl r

variable {L : Supply} {s s' : Unfolding} {r r' : Reading}

theorem Ends.of_visits (h : Visits L s s') (hs : Ends L s' r) : Ends L s r := by
  obtain ⟨t, hvisits, hend⟩ := hs
  exact ⟨t, h.trans hvisits, hend⟩

/-- There is one way to go on only. -/
theorem Ends.unique (h : Ends L s r) (h' : Ends L s r') : r = r' := by
  obtain ⟨t, hvisits, hend⟩ := h
  obtain ⟨t', hvisits', hend'⟩ := h'
  induction hvisits using Relation.ReflTransGen.head_induction_on with
  | refl =>
    rcases hvisits'.cases_head with rfl | ⟨u, hu, -⟩
    · exact Sum.inl.inj (hend.symm.trans hend')
    · rw [hend] at hu
      cases hu
  | head hu _ ih =>
    rcases hvisits'.cases_head with rfl | ⟨u', hu', hrest⟩
    · rw [hend'] at hu
      cases hu
    · obtain rfl := Sum.inr.inj (hu.symm.trans hu')
      exact ih hrest

/-! ### What a step can do -/

theorem names_line {page : Page} {below : List Page} (h : s.pages = page :: below)
    (lines : Except LexError (List (List Token))) :
    names { s with pages := { page with lines := lines } :: below } = s.names := by
  rw [names, names, h]
  rfl

theorem goOn_eq_inr {read : Reading} (h : s.goOn read = .inr s') :
    read.2 = none ∧ s' = { s with progress := read.1 } := by
  obtain ⟨p, _ | e⟩ := read
  · cases h
    exact ⟨rfl, rfl⟩
  · cases h

/-- A page is taken away, a line is read, or a module is entered. -/
theorem step_cases (h : s.step L = .inr s') :
    (∃ page below, s.pages = page :: below ∧ s' = { s with pages := below }) ∨
    (∃ page l ls below p, s.pages = page :: below ∧ page.lines = .ok (l :: ls) ∧
      s' = ⟨{ page with lines := .ok ls } :: below, p, s.followed⟩) ∨
    ∃ page l ls below name line path text, s.pages = page :: below ∧ page.lines = .ok (l :: ls) ∧
      Tokens.use? l = some (name, line) ∧ name ∉ s.names ∧
      L.resolve name = some (.ok (.source path text)) ∧
      s' = enter { s with pages := { page with lines := .ok ls } :: below } page.module?
        name text := by
  unfold step at h
  split at h
  · cases h
  · next page below hpages =>
    split at h
    · cases h
    · next hlines =>
      cases h
      exact .inl ⟨page, below, hpages, rfl⟩
    · next l ls hlines =>
      have hnames := names_line hpages (.ok ls)
      unfold atLine at h
      split at h
      · obtain ⟨-, rfl⟩ := goOn_eq_inr h
        exact .inr (.inl ⟨page, l, ls, below, _, hpages, hlines, rfl⟩)
      · next name line huse =>
        split at h
        · cases h
        · next hnew =>
          split at h
          · cases h
          · next path text hsource =>
            cases h
            exact .inr (.inr ⟨page, l, ls, below, name, line, path, text, hpages, hlines, huse,
              hnames ▸ hnew, hsource, rfl⟩)
          · obtain ⟨-, rfl⟩ := goOn_eq_inr h
            exact .inr (.inl ⟨page, l, ls, below, _, hpages, hlines, rfl⟩)

/-! ### The steps through a page -/

/-- Steps lead to other pages, with the progress of a reading, or to its error. -/
def Passes (L : Supply) (s : Unfolding) (pages : List Page) : Reading → Prop
  | (q, none) => ∃ followed, Visits L s ⟨pages, q, followed⟩
  | (q, some e) => Ends L s (q, some e)

variable {pages pages' below : List Page} {read : Reading} {user : Option String} {use : Includer}

theorem Passes.of_visits (h : Visits L s s') (hs : Passes L s' pages read) :
    Passes L s pages read := by
  obtain ⟨q, _ | e⟩ := read
  · obtain ⟨followed, hvisits⟩ := hs
    exact ⟨followed, h.trans hvisits⟩
  · exact Ends.of_visits h hs

theorem Passes.of_step (h : s.step L = .inr s') (hs : Passes L s' pages read) :
    Passes L s pages read :=
  .of_visits (.single h) hs

theorem passes_goOn {t : Unfolding} (h : s.step L = t.goOn read) : Passes L s t.pages read := by
  obtain ⟨q, _ | e⟩ := read
  · exact ⟨t.followed, .single h⟩
  · exact ⟨s, .refl, h⟩

theorem Passes.andThen {f : Progress → Reading} (h : Passes L s pages read)
    (hf : ∀ q followed, Passes L ⟨pages, q, followed⟩ pages' (f q)) :
    Passes L s pages' (read.andThen f) := by
  obtain ⟨q, _ | e⟩ := read
  · obtain ⟨followed, hvisits⟩ := h
    exact .of_visits hvisits (hf q followed)
  · exact h

/-- A text is read, and its page is taken away. -/
theorem passes_text
    (h : ∀ ls p followed, Passes L ⟨⟨user, .ok ls⟩ :: below, p, followed⟩ (⟨user, .ok []⟩ :: below)
      (Reading.lines use ls p)) (first : Nat) (source : String) (p : Progress)
    (followed : List (Option String × String)) :
    Passes L ⟨⟨user, Tokens.linesOf first source⟩ :: below, p, followed⟩ below
      (Reading.text use first source p) := by
  rw [Reading.text_eq]
  cases hlines : Tokens.linesOf first source with
  | error e => exact ⟨_, .refl, rfl⟩
  | ok ls =>
    obtain ⟨⟨q, _ | e⟩, hread⟩ : ∃ read, Reading.lines use ls p = read := ⟨_, rfl⟩
    · have hpasses := h ls p followed
      simp only [hread] at hpasses ⊢
      obtain ⟨followed', hvisits⟩ := hpasses
      exact ⟨followed', hvisits.tail rfl⟩
    · have hpasses := h ls p followed
      simp only [hread] at hpasses ⊢
      exact hpasses

/-- The steps through a page are a reading of its lines, if there is room for all modules
that are not being read. -/
theorem passes_lines {depth : Nat} {names : List String} (hroom : L.room names < depth)
    (user : Option String) (below : List Page)
    (hnames : ∀ ls, names = List.filterMap Page.module? (⟨user, .ok ls⟩ :: below))
    (ls : List (List Token)) (p : Progress) (followed : List (Option String × String)) :
    Passes L ⟨⟨user, .ok ls⟩ :: below, p, followed⟩ (⟨user, .ok []⟩ :: below)
      (Reading.lines (L.including depth names) ls p) := by
  -- the depth counts modules inside each other, and on each page the lines get fewer
  induction depth generalizing names user below ls p followed with
  | zero => exact absurd hroom (Nat.not_lt_zero _)
  | succ depth ih =>
    induction ls generalizing p followed with
    | nil => exact ⟨followed, .refl⟩
    | cons l ls hrest =>
      have hline : Passes L ⟨⟨user, .ok (l :: ls)⟩ :: below, p, followed⟩ (⟨user, .ok ls⟩ :: below)
          (Reading.line (L.including (depth + 1) names) l p) := by
        have hstep : step L ⟨⟨user, .ok (l :: ls)⟩ :: below, p, followed⟩ =
            atLine L user l ⟨⟨user, .ok ls⟩ :: below, p, followed⟩ := rfl
        cases huse : Tokens.use? l with
        | none =>
          rw [Reading.line_of_no_use _ (fun _ _ p => (p, none)) huse]
          refine passes_goOn (t := ⟨⟨user, .ok ls⟩ :: below, p, followed⟩) ?_
          rw [hstep, atLine, huse]
        | some use =>
          obtain ⟨name, line⟩ := use
          rw [Reading.line_of_use _ huse]
          simp only [atLine, huse] at hstep
          rw [show Unfolding.names ⟨⟨user, .ok ls⟩ :: below, p, followed⟩ =
            names from (hnames ls).symm]
            at hstep
          simp only [Supply.including]
          by_cases hmem : name ∈ names
          · rw [if_pos hmem] at hstep ⊢
            exact ⟨_, .refl, hstep⟩
          · rw [if_neg hmem] at hstep ⊢
            cases hfound : L.resolve name with
            | none =>
              rw [hfound] at hstep
              exact passes_goOn hstep
            | some found =>
              rcases found with fault | (⟨path, text⟩ | path)
              · rw [hfound] at hstep
                exact ⟨_, .refl, hstep⟩
              · rw [hfound] at hstep
                refine .of_step hstep (passes_text (ih ?_ (some name) _ fun ls' => ?_) 1 text p _)
                · exact Nat.lt_of_lt_of_le (Supply.room_cons hfound hmem) (Nat.le_of_lt_succ hroom)
                · rw [hnames ls]
                  rfl
              · rw [hfound] at hstep
                exact passes_goOn hstep
      rw [Reading.lines_cons_eq]
      exact hline.andThen hrest

/-- A piece is read to an end. -/
theorem ends_start (L : Supply) (r : Reader) (source : String) :
    Ends L (start r source)
      (Reading.text (L.including (L.sources.length + 1) []) r.line source ⟨r.draft, #[]⟩) := by
  have hroom : L.room [] < L.sources.length + 1 := Nat.lt_succ_of_le (List.length_filter_le ..)
  have hpasses := passes_text (passes_lines hroom none [] fun _ => rfl) r.line source
    ⟨r.draft, #[]⟩ []
  generalize Reading.text (L.including (L.sources.length + 1) []) r.line source
    ⟨r.draft, #[]⟩ = read
    at hpasses
  obtain ⟨q, _ | e⟩ := read
  · obtain ⟨followed, hvisits⟩ := hpasses
    exact ⟨_, hvisits, rfl⟩
  · exact hpasses

end Unfolding

/-! ### What all steps keep -/

namespace Supply

variable {L : Supply} {top : Except LexError (List (List Token))} {user : Option String}
  {a b : String}

/-- A line of the piece `top`, or a line of a module, uses a module. -/
def UsedOn (L : Supply) (top : Except LexError (List (List Token))) : Option String → String → Prop
  | none, b => ∃ ls, top = .ok ls ∧ Tokens.Uses ls b
  | some a, b => L.Mentions a b

/-- The piece `top` leads to a module. -/
def Reached (L : Supply) (top : Except LexError (List (List Token))) (b : String) : Prop :=
  ∃ a, L.UsedOn top none a ∧ Relation.ReflTransGen L.Mentions a b

theorem UsedOn.reached (h : L.UsedOn top user b) (huser : ∀ a, user = some a → L.Reached top a) :
    L.Reached top b := by
  cases user with
  | none => exact ⟨b, h, .refl⟩
  | some a =>
    obtain ⟨first, hfirst, hreach⟩ := huser a rfl
    exact ⟨first, hfirst, hreach.tail h⟩

end Supply

namespace Unfolding

variable {L : Supply} {top : Except LexError (List (List Token))} {s s' : Unfolding}

/-- All that is used and followed is used in the piece or in a module that the piece leads to, and
each text of the pile leads to the ones above it. -/
structure Traced (L : Supply) (top : Except LexError (List (List Token)))
      (s : Unfolding) : Prop where
  nodup : s.names.Nodup
  uses : ∀ page ∈ s.pages, ∀ ls, page.lines = .ok ls → ∀ b, Tokens.Uses ls b →
    L.UsedOn top page.module? b
  reached : ∀ page ∈ s.pages, ∀ a, page.module? = some a → L.Reached top a
  inside : s.pages.Pairwise fun upper lower => ∃ a, upper.module? = some a ∧
    ∀ b, lower.module? = some b → Relation.TransGen L.Mentions b a
  followed : ∀ e ∈ s.followed, L.UsedOn top e.1 e.2 ∧ ∀ a, e.1 = some a → L.Reached top a

theorem traced_start (L : Supply) (r : Reader) (source : String) :
    Traced L (Tokens.linesOf r.line source) (start r source) := by
  refine ⟨List.nodup_nil, fun page hpage ls hls b hb => ?_, fun page hpage a ha => ?_,
    List.pairwise_singleton .., nofun⟩
  · obtain rfl := List.mem_singleton.1 hpage
    exact ⟨ls, hls, hb⟩
  · obtain rfl := List.mem_singleton.1 hpage
    cases ha

namespace Traced

variable {page : Page} {below : List Page} {l : List Token} {ls : List (List Token)}

/-- A page is taken away. -/
theorem pop (h : Traced L top s) (hpages : s.pages = page :: below) :
    Traced L top { s with pages := below } := by
  have hsublist : below.Sublist s.pages := hpages ▸ List.sublist_cons_self page below
  exact ⟨h.nodup.sublist (hsublist.filterMap _), fun q hq => h.uses q (hsublist.subset hq),
    fun q hq => h.reached q (hsublist.subset hq), h.inside.sublist hsublist, h.followed⟩

/-- A line is taken from a page. -/
theorem line (h : Traced L top s) (hpages : s.pages = page :: below)
    (hlines : page.lines = .ok (l :: ls)) (p : Progress) :
    Traced L top ⟨{ page with lines := .ok ls } :: below, p, s.followed⟩ := by
  obtain ⟨hnodup, huses, hreached, hinside, hfollowed⟩ := h
  rw [names, hpages] at hnodup
  rw [hpages] at huses hreached hinside
  refine ⟨hnodup,
    List.forall_mem_cons.2 ⟨fun ls' hls' b hb => ?_, fun q hq => huses q (.tail _ hq)⟩,
    List.forall_mem_cons.2 ⟨hreached page (.head _), fun q hq => hreached q (.tail _ hq)⟩,
    List.pairwise_cons.2 ⟨(List.pairwise_cons.1 hinside).1, (List.pairwise_cons.1 hinside).2⟩,
      hfollowed⟩
  cases hls'
  obtain ⟨l', hl', hline⟩ := hb
  exact huses page (.head _) _ hlines b ⟨l', .tail _ hl', hline⟩

/-- A module is entered that is used on the page above. -/
theorem enter {name path text : String} (h : Traced L top s) (hpages : s.pages = page :: below)
    (new : name ∉ s.names) (hused : L.UsedOn top page.module? name)
    (hsource : L.resolve name = some (.ok (.source path text))) :
    Traced L top (s.enter page.module? name text) := by
  have hpage : page ∈ s.pages := hpages ▸ .head _
  refine ⟨List.nodup_cons.2 ⟨new, h.nodup⟩, List.forall_mem_cons.2 ⟨fun ls hls b hb => ?_, h.uses⟩,
    List.forall_mem_cons.2 ⟨fun a ha => ?_, h.reached⟩,
      List.pairwise_cons.2 ⟨fun q hq => ?_, h.inside⟩,
    List.forall_mem_cons.2 ⟨⟨hused, h.reached page hpage⟩, h.followed⟩⟩
  · exact ⟨path, text, ls, hsource, hls, hb⟩
  · obtain rfl := Option.some.inj ha
    exact hused.reached (h.reached page hpage)
  · refine ⟨name, rfl, fun b hb => ?_⟩
    rw [hpages] at hq
    rcases List.mem_cons.1 hq with rfl | hq
    · rw [hb] at hused
      exact .single hused
    · have hinside := h.inside
      rw [hpages] at hinside
      obtain ⟨a, ha, hlower⟩ := (List.pairwise_cons.1 hinside).1 q hq
      rw [ha] at hused
      exact (hlower b hb).tail hused

theorem step (h : Traced L top s) (hstep : s.step L = .inr s') : Traced L top s' := by
  obtain ⟨page, below, hpages, rfl⟩ | ⟨page, l, ls, below, p, hpages, hlines, rfl⟩ |
    ⟨page, l, ls, below, name, line, path, text, hpages, hlines, huse, hnew, hsource, rfl⟩ :=
      step_cases hstep
  · exact h.pop hpages
  · exact h.line hpages hlines p
  · have hpage : page ∈ s.pages := hpages ▸ .head _
    have hnames := names_line hpages (.ok ls)
    have hline := h.line hpages hlines s.progress
    have hrest :
        (Unfolding.mk ({ page with lines := .ok ls } :: below) s.progress s.followed).pages =
        { page with lines := .ok ls } :: below := rfl
    have hused := h.uses page hpage _ hlines name ⟨l, .head _, line, huse⟩
    have henter := hline.enter hrest (hnames ▸ hnew) hused hsource
    exact henter

theorem visits (h : Traced L top s) (hvisits : Visits L s s') : Traced L top s' := by
  induction hvisits with
  | refl => exact h
  | tail _ hstep ih => exact ih.step hstep

end Traced

/-! ### Uses that are refused -/

theorem exists_line_of_use? {name : String} {line : Nat} (h : s.use? = some (name, line)) :
    ∃ page l ls below, s.pages = page :: below ∧ page.lines = .ok (l :: ls) ∧
      Tokens.use? l = some (name, line) := by
  obtain ⟨page, hpage, h⟩ := Option.bind_eq_some_iff.1 h
  obtain ⟨ls, hls, h⟩ := Option.bind_eq_some_iff.1 h
  obtain ⟨l, hl, h⟩ := Option.bind_eq_some_iff.1 h
  obtain ⟨below, hpages⟩ := List.head?_eq_some_iff.1 hpage
  obtain ⟨ls', rfl⟩ := List.head?_eq_some_iff.1 hl
  refine ⟨page, l, ls', below, hpages, ?_, h⟩
  cases hlines : page.lines with
  | error e =>
    rw [hlines] at hls
    cases hls
  | ok ls =>
    rw [hlines] at hls
    cases hls
    rfl

theorem goOn_eq_inl {read r : Reading} (h : s.goOn read = .inl r) : read = r := by
  obtain ⟨p, _ | e⟩ := read
  · cases h
  · exact Sum.inl.inj h

/-- A use is refused as a circular one exactly if its module is being read. -/
theorem refused_iff {name : String} {line : Nat} (h : s.use? = some (name, line)) :
    s.step L = .inl (s.progress, some (.grammatical line (.circularUse name))) ↔
    name ∈ s.names := by
  obtain ⟨page, l, ls, below, hpages, hlines, huse⟩ := exists_line_of_use? h
  have hnames := names_line hpages (.ok ls)
  have hunit {t : Unfolding} {found : Option (Except DiskFault Module)} :
      t.goOn (Reading.unit name found s.progress) ≠
        .inl (s.progress, some (.grammatical line (.circularUse name))) := by
    intro heq
    have hread := congrArg Prod.snd (goOn_eq_inl heq)
    unfold Reading.unit at hread
    split at hread <;> cases hread
  simp only [step, hpages, hlines, atLine, huse, hnames]
  by_cases hmem : name ∈ s.names
  · simp only [hmem, if_true]
  · simp only [hmem, if_false, iff_false]
    obtain _ | (fault | (⟨path, text⟩ | path)) := L.resolve name
    · exact hunit
    · nofun
    · nofun
    · exact hunit

namespace Traced

/-- A module that is used while it is being read leads back to itself. -/
theorem leads_back {name : String} {line : Nat} (h : Traced L top s)
    (huse : s.use? = some (name, line)) (hmem : name ∈ s.names) :
    Relation.TransGen L.Mentions name name := by
  obtain ⟨page, l, ls, below, hpages, hlines, hline⟩ := exists_line_of_use? huse
  have hused : L.UsedOn top page.module? name :=
    h.uses page (hpages ▸ .head _) _ hlines name ⟨l, .head _, line, hline⟩
  obtain ⟨q, hq, hname⟩ := List.mem_filterMap.1 hmem
  rw [hpages] at hq
  rcases List.mem_cons.1 hq with rfl | hq
  · rw [hname] at hused
    exact .single hused
  · have hinside := h.inside
    rw [hpages] at hinside
    obtain ⟨a, ha, hlower⟩ := (List.pairwise_cons.1 hinside).1 q hq
    rw [ha] at hused
    exact (hlower name hname).tail hused

/-- The innermost module that is being read, if there is one, is the one whose lines are read. -/
theorem head?_names {page : Page} {below : List Page} (h : Traced L top s)
    (hpages : s.pages = page :: below) :
    s.names.head? = page.module? := by
  have hinside := h.inside
  rw [hpages] at hinside
  rw [names, hpages, List.filterMap_cons]
  cases hmodule : page.module? with
  | some a => rfl
  | none =>
    -- nothing lies below the piece itself
    cases below with
    | nil => rfl
    | cons q below =>
      obtain ⟨a, ha, -⟩ := (List.pairwise_cons.1 hinside).1 q (.head _)
      rw [hmodule] at ha
      cases ha

/-- A module of source text that is not being read is entered. -/
theorem exists_step_of_new {name path text : String} {line : Nat} (h : Traced L top s)
    (huse : s.use? = some (name, line)) (new : name ∉ s.names)
    (hsource : L.resolve name = some (.ok (.source path text))) :
    ∃ s', s.step L = .inr s' ∧ s'.names = name :: s.names ∧
      s'.followed = (s.names.head?, name) :: s.followed := by
  obtain ⟨page, l, ls, below, hpages, hlines, hline⟩ := exists_line_of_use? huse
  have hnames := names_line hpages (.ok ls)
  refine ⟨Unfolding.enter { s with pages := { page with lines := .ok ls } :: below }
    page.module? name text, ?_, ?_, ?_⟩
  · simp only [Unfolding.step, hpages, hlines, atLine, hline, hnames, new, if_false, hsource]
  · rw [← hnames]
    rfl
  · rw [h.head?_names hpages]
    rfl

/-- After a reading that succeeds, the uses that were followed form no cycle. -/
theorem acyclic (h : Traced L top s) (hread : ∀ b, L.UsedOn top none b → L.Readable [] b)
    (a : String) :
    ¬ Relation.TransGen (fun a b => (some a, b) ∈ s.followed) a a := by
  intro hcycle
  have hmentions : Relation.TransGen L.Mentions a a :=
    hcycle.lift id fun a b hab => (h.followed (some a, b) hab).1
  obtain ⟨b, hab, -⟩ := Relation.TransGen.head'_iff.1 hcycle
  obtain ⟨first, hfirst, hreach⟩ := (h.followed _ hab).2 a rfl
  obtain ⟨within, ha, -⟩ := exists_entered Supply.Readable.mentions (hread first hfirst) hreach
  exact not_transGen_of_entered Supply.Readable.not_mem Supply.Readable.mentions ha hmentions

end Traced
end Unfolding

/-! ### All readings end -/

/-- What a reader answers if a piece is read in this way. -/
def Reader.answer (r : Reader) (source : String) : Reading → Reader × Except Error (List Node)
  | (p, some e) => (⟨p.draft, r.line + max 1 (Text.lineCount source)⟩, .error e)
  | (p, none) => (⟨p.draft, r.line + max 1 (Text.lineCount source)⟩, .ok p.handed.toList)

theorem Reader.parse_eq_answer (catalog : Catalog) (source : String) (r : Reader) :
    r.parse catalog source = r.answer source (Reading.piece catalog r.line source r.draft) := by
  unfold parse
  obtain ⟨p, _ | e⟩ := Reading.piece catalog r.line source r.draft <;> rfl

/-- Whatever modules there are and whatever was read before, a piece of source text is read to one
end after finitely many steps, and with the modules of a catalog this is what the reader answers. At
no time on the way is a module being read twice. The use of a module is refused as a circular one,
on its line, exactly if the module is being read, and then the module leads back to itself; a module
that is not being read is entered, however often it was used before. If the piece can be read, the
uses that were followed form no cycle. -/
theorem inclusion_ends (L : Supply) (r : Reader) (source : String) :
    (∃! read, Unfolding.Ends L (.start r source) read) ∧
    (∀ catalog : Catalog, ∃ read, Unfolding.Ends (.ofCatalog catalog) (.start r source) read ∧
      r.parse catalog source = r.answer source read) ∧
    ∀ s, Unfolding.Visits L (.start r source) s →
      s.names.Nodup ∧
      (∀ name line, s.use? = some (name, line) →
        (s.step L = .inl (s.progress, some (.grammatical line (.circularUse name))) ↔
          name ∈ s.names) ∧
        (name ∈ s.names → (SyntaxFault.circularUse name).message = "circular USE of " ++ name ∧
          Relation.TransGen L.Mentions name name) ∧
        (name ∉ s.names → ∀ path text, L.resolve name = some (.ok (.source path text)) →
          ∃ s', s.step L = .inr s' ∧ s'.names = name :: s.names ∧
            s'.followed = (s.names.head?, name) :: s.followed)) ∧
      ∀ p, s.step L = .inl (p, none) →
        ∀ a, ¬ Relation.TransGen (fun a b => (some a, b) ∈ s.followed) a a := by
  have hends := Unfolding.ends_start L r source
  refine ⟨⟨_, hends, fun _ h => h.unique hends⟩, fun catalog => ?_, fun s hs => ?_⟩
  · refine ⟨_, Unfolding.ends_start (.ofCatalog catalog) r source, ?_⟩
    rw [Supply.including_ofCatalog, Reader.parse_eq_answer, Reading.piece]
    simp [Supply.ofCatalog]
  have htraced := (Unfolding.traced_start L r source).visits hs
  refine ⟨htraced.nodup, fun name line huse =>
    ⟨Unfolding.refused_iff huse, fun hmem => ?_, fun hnew => ?_⟩,
    fun p hend => htraced.acyclic fun b hb => ?_⟩
  · exact ⟨rfl, htraced.leads_back huse hmem⟩
  · exact fun path text hsource => htraced.exists_step_of_new huse hnew hsource
  · have hread := Unfolding.Ends.unique hends ⟨s, hs, hend⟩
    obtain ⟨ls, hlines, huse⟩ := hb
    rw [Reading.text_eq, hlines] at hread
    obtain ⟨line, p', q', h⟩ := Reading.exists_of_lines hread huse
    exact ⟨_, line, p', q', h⟩

/-- Two modules that use each other, one of them used twice before. -/
example :
    let catalog : Catalog := [("PING", .ok (.source "ping.bas" "A = 1\nUSE Pong")),
      ("PONG", .ok (.source "pong.bas" "USE Leaf\nUSE Leaf\nUSE Ping")),
        ("LEAF", .ok (.source "leaf.bas" "B = 2"))]
    ((Reader.start.parse catalog "USE Leaf\nUSE Ping").1.draft.done.size,
      (Reader.start.parse catalog "USE Leaf\nUSE Ping").2.toBool) = (4, false) := by
  decide +kernel

end LineBasic
