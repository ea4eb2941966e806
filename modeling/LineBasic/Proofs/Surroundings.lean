import LineBasic.Proofs.Nesting

/-!
# What stands around a statement

A program is its statements, placed one after another. Whatever is placed later, a statement that
was accepted as a jump out of a kind of loop ends up inside a loop of that kind, and inside no other
loop or function within it.

* `Reader.placements?` : the statements of source text, those of modules in place of their uses.
* `Reader.program?_eq` : the tree of source text is made from these statements.
* `Frame`, `Surroundings` : trees with one place left open, and the innermost
  loop around that place.
* `Draft.Holed` : drafts with one place left open, kept by every statement (`Draft.Holed.place`).
* `Draft.jump_surroundings` : the surroundings of a jump in the tree of a program.
-/

namespace LineBasic

/-! ### The statements of source text -/

/-- A statement with the number of its line. -/
abbrev Placement := Nat × Statement

namespace Draft

/-- Places statements one after another, if all of them can be placed. -/
def placeAll? : List Placement → Draft → Option Draft
  | [], d => some d
  | s :: ss, d =>
    match d.place s.1 s.2 with
    | .ok r => placeAll? ss r.1
    | .error _ => none

/-- The tree that statements make, if they make one. -/
def read? (ps : List Placement) : Option Node :=
  (placeAll? ps .empty).bind fun d => d.finish.toOption

theorem placeAll?_append (ps ps' : List Placement) (d : Draft) :
    placeAll? (ps ++ ps') d = (placeAll? ps d).bind (placeAll? ps') := by
  induction ps generalizing d with
  | nil => rfl
  | cons s ss ih =>
    simp only [List.cons_append, placeAll?]
    cases d.place s.1 s.2 with
    | ok r => exact ih r.1
    | error f => rfl

end Draft

/-- What a `USE` of a name stands for. -/
abbrev Expansion := String → Option (List Placement)

namespace Expansion

/-- What a line says. -/
def line (use : Expansion) (number : Nat) : Option Statement → Option (List Placement)
  | none => some []
  | some (.use name) => use name
  | some s => some [(number, s)]

/-- What the lines from a number on say. -/
def lines (use : Expansion) : Nat → List (Option Statement) → Option (List Placement)
  | _, [] => some []
  | number, s :: ss =>
    (use.line number s).bind fun ps => (lines use (number + 1) ss).map (ps ++ ·)

/-- What the uses of the modules of a catalog stand for, inside other modules. -/
def ofCatalog (catalog : Catalog) : Nat → List String → Expansion
  | 0, _ => fun _ => none
  | depth + 1, within => fun name =>
    if name ∈ within then none
    else
      match catalog.source? name with
      | some text =>
        (statementsOf? text.toList).bind (lines (ofCatalog catalog depth (name :: within)) 1)
      | none => (catalog.unit? name).map fun what => [(1, .simple (.plain (.inclusion what) []))]

end Expansion

namespace Progress

/-- An expansion gives the statements that uses place. -/
def Uses.Places (use : Uses) (expansion : Expansion) : Prop :=
  ∀ name line p, (use name line p).map draft = (expansion name).bind (Draft.placeAll? · p.draft)

variable {use : Uses} {expansion : Expansion}

theorem step_places (h : use.Places expansion) (line : Nat) (p : Progress) (s : Option Statement) :
    (p.step use line s).map draft = (expansion.line line s).bind (Draft.placeAll? · p.draft) := by
  unfold step
  split
  · rfl
  · exact h _ line p
  · next s hs =>
    rw [show expansion.line line (some s) = some [(line, s)] from by
      cases s <;> first | rfl | exact absurd rfl (hs _)]
    simp only [Option.bind_some, Draft.placeAll?]
    cases p.draft.place line s with
    | error f => rfl
    | ok r => exact congrArg some (advance_draft p r)

theorem steps_places (h : use.Places expansion) (line : Nat) (ss : List (Option Statement))
    (p : Progress) :
    (steps use line ss p).map draft =
      (expansion.lines line ss).bind (Draft.placeAll? · p.draft) := by
  induction ss generalizing line p with
  | nil => rfl
  | cons s ss ih =>
    have hstep := step_places h line p s
    unfold steps Expansion.lines
    cases hsaid : expansion.line line s with
    | none =>
      rw [hsaid] at hstep
      rw [Option.map_eq_none_iff.1 hstep]
      rfl
    | some ps =>
      rw [hsaid, Option.bind_some] at hstep
      simp only [Option.bind_some, Option.bind_map, Function.comp_def,
        Draft.placeAll?_append, ← hstep]
      cases p.step use line s with
      | none => simp
      | some q => simpa using ih (line + 1) q

theorem ofCatalog_places (catalog : Catalog) (depth : Nat) (within : List String) :
    (Uses.ofCatalog catalog depth within).Places (.ofCatalog catalog depth within) := by
  induction depth generalizing within with
  | zero => exact fun _ _ _ => rfl
  | succ depth ih =>
    intro name line p
    simp only [ofCatalog_succ, Expansion.ofCatalog]
    by_cases hin : name ∈ within
    · simp only [hin, if_true]
      rfl
    · simp only [hin, if_false]
      cases catalog.source? name with
      | some text =>
        cases hss : statementsOf? text.toList with
        | none => simp only [hss]; rfl
        | some ss =>
          simp only [hss]
          exact steps_places (ih (name :: within)) 1 ss p
      | none =>
        cases catalog.unit? name with
        | none => rfl
        | some what => exact congrArg some (advance_draft p _)

end Progress

namespace Reader

/-- The statements of a program in pieces, from a line on, if all of them can be read. -/
def placements? (catalog : Catalog) : Nat → List String → Option (List Placement)
  | _, [] => some []
  | number, piece :: pieces =>
    ((statementsOf? piece.toList).bind
      (Expansion.lines (.ofCatalog catalog (catalog.length + 1) []) number)).bind fun ps =>
        (placements? catalog (number + max 1 (Text.lineCount piece)) pieces).map (ps ++ ·)

theorem parseAll?_draft (catalog : Catalog) (pieces : List String) (r : Reader) :
    (parseAll? catalog pieces r).map (fun read => read.1.draft) =
      (placements? catalog r.line pieces).bind (Draft.placeAll? · r.draft) := by
  induction pieces generalizing r with
  | nil => rfl
  | cons piece pieces ih =>
    simp only [parseAll?, placements?, parse?_eq]
    cases statementsOf? piece.toList with
    | none => rfl
    | some ss =>
      have hplaces : (uses catalog).Places (.ofCatalog catalog (catalog.length + 1) []) :=
        Progress.ofCatalog_places catalog (catalog.length + 1) []
      have hsteps := Progress.steps_places hplaces r.line ss ⟨r.draft, #[]⟩
      simp only [Option.bind_some] at hsteps ⊢
      cases hps : Expansion.lines (.ofCatalog catalog (catalog.length + 1) []) r.line ss with
      | none =>
        rw [hps] at hsteps
        rw [Option.map_eq_none_iff.1 hsteps]
        rfl
      | some ps =>
        rw [hps, Option.bind_some] at hsteps
        simp only [Option.bind_some, Option.bind_map, Function.comp_def, Draft.placeAll?_append,
          ← hsteps]
        cases Progress.steps (uses catalog) r.line ss ⟨r.draft, #[]⟩ with
        | none => simp
        | some p => simpa [Function.comp_def] using ih ⟨p.draft, _⟩

/-- The tree of source text is made from its statements. -/
theorem program?_eq (catalog : Catalog) (pieces : List String) :
    program? catalog pieces = (placements? catalog 1 pieces).bind Draft.read? := by
  have hdraft := parseAll?_draft catalog pieces .start
  have hfinish (r : Reader) : r.finish.toOption = r.draft.finish.toOption := by
    unfold finish
    cases r.draft.finish <;> rfl
  calc program? catalog pieces
      = ((parseAll? catalog pieces .start).map fun read => read.1.draft).bind
          fun d => d.finish.toOption := by
        simp only [program?, hfinish, Option.bind_map, Function.comp_def]
    _ = (placements? catalog 1 pieces).bind Draft.read? := by
        rw [hdraft, Option.bind_assoc]
        rfl

end Reader

/-! ### Trees with an open place -/

/-- The kind of a loop. -/
def Control.loop? : Control → Option LoopKind
  | whileLoop => some .whileLoop
  | doLoop => some .doLoop
  | forLoop _ => some .forLoop
  | _ => none

/-- A construct around an open place. -/
inductive Frame where
  /-- The place is a statement of the body. -/
  | body (c : Control) (head before after : List Node)
  /-- The place is a branch of a chain. -/
  | chain (before after : List Node)

namespace Frame

/-- The construct with a node in its open place. -/
def fill : Frame → Node → Node
  | body c head before after, n => .construct c head (before ++ n :: after)
  | chain before after, n => .plain .chain (before ++ n :: after)

/-- Constructs around each other, the innermost first, with a node in the open place. -/
def fillAll (fs : List Frame) (n : Node) : Node := fs.foldl (fun n f => f.fill n) n

/-- The innermost loop around the open place. Branches and chains do not count, and functions hide
the loops outside of them. What is around all of the frames has the innermost loop `outside`. -/
def loop? (outside : Option LoopKind) : List Frame → Option LoopKind
  | [] => outside
  | chain _ _ :: fs => loop? outside fs
  | body (.branch _) _ _ _ :: fs => loop? outside fs
  | body c _ _ _ :: _ => c.loop?

theorem loop?_append (outside : Option LoopKind) (fs gs : List Frame) :
    loop? outside (fs ++ gs) = loop? (loop? outside gs) fs := by
  induction fs with
  | nil => rfl
  | cons f fs ih =>
    cases f with
    | chain before after => exact ih
    | body c head before after => cases c <;> first | exact ih | rfl

end Frame

/-- A program with an open place. -/
structure Surroundings where
  before : List Node
  frames : List Frame
  after : List Node

namespace Surroundings

/-- The program with a node in the open place. -/
def tree (around : Surroundings) (n : Node) : Node :=
  .program (around.before ++ Frame.fillAll around.frames n :: around.after)

/-- The innermost loop around the open place. -/
def loop? (around : Surroundings) : Option LoopKind := Frame.loop? none around.frames

end Surroundings

/-! ### Drafts with an open place -/

namespace BlockHead

/-- A head without the branches before it. -/
def outline : BlockHead → BlockHead
  | branch fallback guard _ => branch fallback guard []
  | head => head

/-- Only branches look different without what is before them. -/
theorem eq_of_outline {head head' : BlockHead} (h : head.outline = head') :
    head = head' ∨ ∃ fallback guard earlier,
      head = .branch fallback guard earlier ∧ head' = .branch fallback guard [] := by
  cases head with
  | branch fallback guard earlier => exact .inr ⟨fallback, guard, earlier, rfl, h.symm⟩
  | _ => exact .inl h

theorem closedBy_outline (head : BlockHead) (closer : Closer) :
    head.outline.closedBy closer = head.closedBy closer := by
  cases head <;> cases closer <;> rfl

end BlockHead

namespace OpenBlock

/-- A block with an open place inside `fs`, among its statements or in an earlier branch. -/
inductive Holed (fs : List Frame) : (Node → OpenBlock) → Prop
  | statement (head : BlockHead) (line : Nat) (before after : List Node) :
      Holed fs fun n => ⟨head, line, (before ++ Frame.fillAll fs n :: after).toArray⟩
  | earlier (fallback : Bool) (guard : Node) (line : Nat) (before after : List Node)
      (statements : Array Node) :
      Holed fs fun n =>
        ⟨.branch fallback guard (before ++ Frame.fillAll fs n :: after), line, statements⟩

variable {fs : List Frame} {B : Node → OpenBlock}

theorem Holed.push (h : Holed fs B) (m : Node) :
    Holed fs fun n => { B n with statements := (B n).statements.push m } := by
  cases h with
  | statement head line before after =>
    have hpush : Holed fs _ := statement head line before (after ++ [m])
    simpa using hpush
  | earlier fallback guard line before after statements =>
    exact earlier fallback guard line before after (statements.push m)

/-- The node of a block is around the open place of the block. -/
theorem Holed.node (h : Holed fs B) (again : Node) (outer : List OpenBlock) :
    ∃ gs, (∀ n, (B n).node again = Frame.fillAll (fs ++ gs) n) ∧
      ∀ n, Frame.loop? (Draft.loopOf outer) gs = Draft.loopOf (B n :: outer) := by
  cases h with
  | statement head line before after =>
    cases head with
    | branch fallback guard earlier =>
      refine ⟨[.body (.branch fallback) [guard] before after, .chain earlier []], fun n => ?_,
        fun n => rfl⟩
      simp [OpenBlock.node, branches, Frame.fillAll, Frame.fill]
    | whileLoop guard =>
      refine ⟨[.body .whileLoop [guard] before after], fun n => ?_, fun n => rfl⟩
      simp [OpenBlock.node, Frame.fillAll, Frame.fill]
    | doLoop =>
      refine ⟨[.body .doLoop [again] before after], fun n => ?_, fun n => rfl⟩
      simp [OpenBlock.node, Frame.fillAll, Frame.fill]
    | forLoop counter start limit step =>
      refine ⟨[.body (.forLoop counter) [start, limit, step] before after], fun n => ?_,
        fun n => rfl⟩
      simp [OpenBlock.node, Frame.fillAll, Frame.fill]
    | closure kind name params =>
      refine ⟨[.body (kind.control name params) [] before after], fun n => ?_, fun n => ?_⟩
      · simp [OpenBlock.node, Frame.fillAll, Frame.fill]
      · cases kind <;> rfl
  | earlier fallback guard line before after statements =>
    refine ⟨[.chain before (after ++ [.construct (.branch fallback) [guard] statements.toList])],
      fun n => ?_, fun n => rfl⟩
    simp [OpenBlock.node, branches, Frame.fillAll, Frame.fill]

/-- The branches of a block are around its open place. -/
theorem Holed.nextBranch {fallback : Bool} {guard : Node} {earlier : List Node} (h : Holed fs B)
    (hhead : (B default).head.outline = .branch fallback guard earlier) (fallback' : Bool)
    (guard' : Node) (line : Nat) (outer : List OpenBlock) :
    ∃ gs, Holed (fs ++ gs) (fun n => ⟨.branch fallback' guard' (B n).branches, line, #[]⟩) ∧
      ∀ n, Frame.loop? (Draft.loopOf outer) gs = Draft.loopOf (B n :: outer) := by
  cases h with
  | statement head line₀ before after =>
    cases head with
    | branch fallback₀ guard₀ earlier =>
      refine ⟨[.body (.branch fallback₀) [guard₀] before after], ?_, fun n => rfl⟩
      have hnext : Holed (fs ++ [.body (.branch fallback₀) [guard₀] before after]) _ :=
        .earlier fallback' guard' line earlier [] #[]
      simpa [branches, Frame.fillAll, Frame.fill] using hnext
    | _ => cases hhead
  | earlier fallback₀ guard₀ line₀ before after statements =>
    refine ⟨[], ?_, fun n => rfl⟩
    have hnext : Holed (fs ++ []) _ := .earlier fallback' guard' line before
      (after ++ [.construct (.branch fallback₀) [guard₀] statements.toList]) #[]
    simpa [branches] using hnext

theorem Holed.outline_eq (h : Holed fs B) (n : Node) :
    (B n).head.outline = (B default).head.outline := by
  cases h <;> rfl

end OpenBlock

namespace Draft

/-- A draft with an open place, which is inside a loop of a kind as soon as all
constructs are closed. -/
inductive Holed (kind : LoopKind) : (Node → Draft) → Prop
  | done (fs : List Frame) (before after : List Node) (opened : List OpenBlock)
      (hloop : Frame.loop? none fs = some kind) :
      Holed kind fun n => ⟨(before ++ Frame.fillAll fs n :: after).toArray, opened⟩
  | opened (done : Array Node) (inner : List OpenBlock) (outer : List OpenBlock) {fs : List Frame}
      {B : Node → OpenBlock} (hB : OpenBlock.Holed fs B)
      (hloop : ∀ n, Frame.loop? (loopOf (B n :: outer)) fs = some kind) :
      Holed kind fun n => ⟨done, inner ++ B n :: outer⟩

variable {kind : LoopKind} {D : Node → Draft}

/-- A node that is attached to a draft may have an open place. -/
theorem holed_attach (d : Draft) {fs : List Frame}
    (hloop : Frame.loop? (loopOf d.opened) fs = some kind) :
    Holed kind fun n => (d.attach (Frame.fillAll fs n)).1 := by
  obtain ⟨⟨done⟩, _ | ⟨⟨head, line, ⟨statements⟩⟩, outer⟩⟩ := d
  · have hdone : Holed kind _ := .done fs done [] [] hloop
    simpa [attach] using hdone
  · have hblock : OpenBlock.Holed fs _ := .statement head line statements []
    have hopened : Holed kind _ := .opened ⟨done⟩ [] outer hblock fun _ => hloop
    simpa [attach] using hopened

namespace Holed

theorem attach (h : Holed kind D) (m : Node) : Holed kind fun n => ((D n).attach m).1 := by
  cases h with
  | done fs before after opened hloop =>
    cases opened with
    | nil =>
      have hdone : Holed kind _ := .done fs before (after ++ [m]) [] hloop
      simpa [Draft.attach] using hdone
    | cons b outer => exact .done fs before after (_ :: outer) hloop
  | opened done inner outer hB hloop =>
    cases inner with
    | nil => exact .opened done [] outer (hB.push m) hloop
    | cons b inner => exact .opened done (_ :: inner) outer hB hloop

theorem enter (h : Holed kind D) (head : BlockHead) (line : Nat) :
    Holed kind fun n => (D n).enter head line := by
  cases h with
  | done fs before after opened hloop => exact .done fs before after (_ :: opened) hloop
  | opened done inner outer hB hloop => exact .opened done (_ :: inner) outer hB hloop

/-- The innermost open construct of a draft with an open place: it can be closed, and another
branch can follow it. -/
theorem top (h : Holed kind D) :
    (∀ n, (D n).opened = []) ∨
      ∃ (head : BlockHead) (B : Node → OpenBlock) (outer : Node → List OpenBlock),
        (∀ n, (D n).opened = B n :: outer n ∧ (B n).head.outline = head) ∧
        (∀ again, Holed kind fun n => ((D n).leave (outer n) ((B n).node again)).1) ∧
        ∀ {fallback guard earlier}, head = .branch fallback guard earlier → ∀ fallback' guard' line,
          Holed kind fun n =>
            ⟨(D n).done, ⟨.branch fallback' guard' (B n).branches, line, #[]⟩ :: outer n⟩ := by
  cases h with
  | done fs before after opened hloop =>
    cases opened with
    | nil => exact .inl fun _ => rfl
    | cons b outer =>
      refine .inr ⟨_, fun _ => b, fun _ => outer, fun _ => ⟨rfl, rfl⟩, fun again => ?_, ?_⟩
      · exact (done fs before after outer hloop).attach (b.node again)
      · exact fun _ _ _ _ => .done fs before after (_ :: outer) hloop
  | @opened done inner outer fs B hB hloop =>
    cases inner with
    -- the innermost construct is the one with the open place
    | nil =>
      refine .inr ⟨_, B, fun _ => outer, fun n => ⟨rfl, hB.outline_eq n⟩, fun again => ?_, ?_⟩
      · obtain ⟨gs, hnode, hgs⟩ := hB.node again outer
        have houter : Frame.loop? (loopOf outer) (fs ++ gs) = some kind := by
          rw [Frame.loop?_append, hgs default, hloop]
        have hattach : Holed kind _ := holed_attach ⟨done, outer⟩ houter
        simpa only [leave, hnode] using hattach
      · intro fallback guard earlier hhead fallback' guard' line
        obtain ⟨gs, hnext, hgs⟩ := hB.nextBranch hhead fallback' guard' line outer
        refine .opened done [] outer hnext fun n => ?_
        rw [Frame.loop?_append, ← hloop n, ← hgs n]
        rfl
    | cons b inner =>
      refine .inr ⟨_, fun _ => b, fun n => inner ++ B n :: outer, fun _ => ⟨rfl, rfl⟩,
        fun again => ?_, ?_⟩
      · exact (opened done inner outer hB hloop).attach (b.node again)
      · exact fun _ _ _ _ => .opened done (_ :: inner) outer hB hloop

theorem loopOf_eq (h : Holed kind D) (n : Node) :
    loopOf (D n).opened = loopOf (D default).opened := by
  cases h with
  | done fs before after opened hloop => rfl
  | opened done inner outer hB hloop =>
    induction inner with
    | nil => cases hB <;> rfl
    | cons b inner ih => simp only [List.cons_append, loopOf, ih]

theorem closure?_eq (h : Holed kind D) (n : Node) : (D n).closure? = (D default).closure? := by
  cases h with
  | done fs before after opened hloop => rfl
  | opened done inner outer hB hloop =>
    simp only [closure?, List.findSome?_append]
    cases hB <;> rfl

end Holed

/-- Something is done to a draft with an open place: it fails whatever stands there, or succeeds and
leaves the place open. -/
def Uniform (kind : LoopKind) (F : Node → Except SyntaxFault (Draft × Option Node)) : Prop :=
  (∃ f, ∀ n, F n = .error f) ∨
    ∃ R : Node → Draft × Option Node, (∀ n, F n = .ok (R n)) ∧ Holed kind fun n => (R n).1

namespace Holed

theorem close (h : Holed kind D) (closer : Closer) : Uniform kind fun n => (D n).close closer := by
  rcases h.top with hnil | ⟨head, B, outer, hB, hleave, -⟩
  · exact .inl ⟨_, fun n => by simp only [Draft.close, hnil n]; rfl⟩
  · have hclosed (n : Node) : (B n).head.closedBy closer = head.closedBy closer := by
      rw [← (hB n).2, BlockHead.closedBy_outline]
    cases hc : head.closedBy closer with
    | true =>
      refine .inr ⟨fun n => (D n).leave (outer n) (B n).closedNode, fun n => ?_, hleave _⟩
      simp only [Draft.close, (hB n).1, hclosed, hc, if_true]
    | false =>
      refine .inl ⟨.closerWithout closer.words closer.opener, fun n => ?_⟩
      simp [Draft.close, (hB n).1, hclosed, hc]

theorem closeDo (h : Holed kind D) (again : Node) : Uniform kind fun n => (D n).closeDo again := by
  rcases h.top with hnil | ⟨head, B, outer, hB, hleave, -⟩
  · exact .inl ⟨_, fun n => by simp only [Draft.closeDo, hnil n]; rfl⟩
  · cases head with
    | doLoop =>
      refine .inr ⟨fun n => (D n).leave (outer n) ((B n).node again), fun n => ?_, hleave again⟩
      rcases BlockHead.eq_of_outline (hB n).2 with hhead | ⟨_, _, _, -, hbranch⟩
      · simp only [Draft.closeDo, (hB n).1, hhead]
      · cases hbranch
    | _ =>
      refine .inl ⟨.closerWithout "LOOP" "DO", fun n => ?_⟩
      rcases BlockHead.eq_of_outline (hB n).2 with hhead | ⟨_, _, _, hhead, -⟩ <;>
        simp only [Draft.closeDo, (hB n).1, hhead]

theorem closeFor (h : Holed kind D) (named : Option String) :
    Uniform kind fun n => (D n).closeFor named := by
  rcases h.top with hnil | ⟨head, B, outer, hB, hleave, -⟩
  · exact .inl ⟨_, fun n => by simp only [Draft.closeFor, hnil n]; rfl⟩
  · cases head with
    | forLoop counter start limit step =>
      have hhead (n : Node) : (B n).head = .forLoop counter start limit step := by
        rcases BlockHead.eq_of_outline (hB n).2 with hhead | ⟨_, _, _, -, hbranch⟩
        · exact hhead
        · cases hbranch
      have hclose : Uniform kind fun n => .ok ((D n).leave (outer n) (B n).closedNode) :=
        .inr ⟨_, fun _ => rfl, hleave _⟩
      cases named with
      | none => simpa only [Draft.closeFor, (hB _).1, hhead] using hclose
      | some name =>
        by_cases hname : name = counter
        · simpa only [Draft.closeFor, (hB _).1, hhead, hname, if_true] using hclose
        · refine .inl ⟨.counterMismatch name counter, fun n => ?_⟩
          simp only [Draft.closeFor, (hB n).1, hhead n, hname, if_false]
    | _ =>
      refine .inl ⟨.closerWithout "NEXT" "FOR", fun n => ?_⟩
      rcases BlockHead.eq_of_outline (hB n).2 with hhead | ⟨_, _, _, hhead, -⟩ <;>
        simp only [Draft.closeFor, (hB n).1, hhead]

theorem nextBranch (h : Holed kind D) (word : String) (fallback : Bool) (guard : Node)
    (line : Nat) :
    Uniform kind fun n =>
      ((D n).nextBranch word fallback guard line).map fun d => (d, none) := by
  rcases h.top with hnil | ⟨head, B, outer, hB, -, hnext⟩
  · exact .inl ⟨_, fun n => by simp only [Draft.nextBranch, hnil n]; rfl⟩
  · cases head with
    | branch fallback₀ guard₀ earlier₀ =>
      have hhead (n : Node) : ∃ earlier, (B n).head = .branch fallback₀ guard₀ earlier := by
        rcases BlockHead.eq_of_outline (hB n).2 with hhead | ⟨_, _, earlier, hhead, hbranch⟩
        · exact ⟨earlier₀, hhead⟩
        · cases hbranch
          exact ⟨earlier, hhead⟩
      cases fallback₀ with
      | false =>
        refine .inr ⟨fun n => (⟨(D n).done, ⟨.branch fallback guard (B n).branches, line, #[]⟩ ::
          outer n⟩, none), fun n => ?_, hnext rfl fallback guard line⟩
        obtain ⟨earlier, hhead⟩ := hhead n
        simp only [Draft.nextBranch, (hB n).1, hhead]
        rfl
      | true =>
        refine .inl ⟨.branchAfterElse word, fun n => ?_⟩
        obtain ⟨earlier, hhead⟩ := hhead n
        simp only [Draft.nextBranch, (hB n).1, hhead]
        rfl
    | _ =>
      refine .inl ⟨.branchWithoutIf word, fun n => ?_⟩
      rcases BlockHead.eq_of_outline (hB n).2 with hhead | ⟨_, _, _, -, hbranch⟩
      · simp only [Draft.nextBranch, (hB n).1, hhead]
        rfl
      · cases hbranch

/-- Every statement can be placed, or not, whatever stands in the open place, which stays open. -/
theorem place (h : Holed kind D) (line : Nat) (s : Statement) :
    Uniform kind fun n => (D n).place line s := by
  cases s with
  | simple m => exact .inr ⟨_, fun _ => rfl, h.attach m⟩
  | openIf guard => exact .inr ⟨_, fun _ => rfl, h.enter _ line⟩
  | elseIf guard => exact h.nextBranch "ELSEIF" false guard line
  | otherwise => exact h.nextBranch "ELSE" true (.literal (.bool true)) line
  | openWhile guard => exact .inr ⟨_, fun _ => rfl, h.enter _ line⟩
  | openDo => exact .inr ⟨_, fun _ => rfl, h.enter _ line⟩
  | openFor counter start limit step => exact .inr ⟨_, fun _ => rfl, h.enter _ line⟩
  | openClosure closureKind name params => exact .inr ⟨_, fun _ => rfl, h.enter _ line⟩
  | close closer => exact h.close closer
  | loop guard => exact h.closeDo guard
  | next named => exact h.closeFor named
  | jump j named =>
    by_cases hloop : loopOf (D default).opened = some named
    · refine .inr ⟨_, fun n => ?_, h.attach j.node⟩
      simp only [Draft.place, placeJump, h.loopOf_eq n, hloop, if_true]
    · refine .inl ⟨.jumpOutside j.word named.word, fun n => ?_⟩
      simp only [Draft.place, placeJump, h.loopOf_eq n, hloop, if_false]
  | giveBack value =>
    simp only [Draft.place, placeReturn, h.closure?_eq]
    split
    · exact .inl ⟨_, fun _ => rfl⟩
    · exact .inl ⟨_, fun _ => rfl⟩
    · exact .inr ⟨_, fun _ => rfl, h.attach _⟩
  | use name => exact .inr ⟨_, fun _ => rfl, h⟩

theorem placeAll (h : Holed kind D) (ps : List Placement) :
    (∀ n, placeAll? ps (D n) = none) ∨
      ∃ D' : Node → Draft, (∀ n, placeAll? ps (D n) = some (D' n)) ∧ Holed kind D' := by
  induction ps generalizing D with
  | nil => exact .inr ⟨D, fun _ => rfl, h⟩
  | cons s ss ih =>
    rcases h.place s.1 s.2 with ⟨f, hf⟩ | ⟨R, hR, hholed⟩
    · exact .inl fun n => by simp only [placeAll?, hf n]
    · simp only [placeAll?, hR]
      exact ih hholed

/-- When all constructs are closed, a program is left, with the open place
inside a loop of the kind. -/
theorem finish (h : Holed kind D) :
    (∀ n, (D n).finish.toOption = none) ∨
      ∃ around : Surroundings, around.loop? = some kind ∧
        ∀ n, (D n).finish.toOption = some (around.tree n) := by
  rcases h.top with hnil | ⟨head, B, outer, hB, -⟩
  · cases h with
    | done fs before after opened hloop =>
      obtain rfl : opened = [] := hnil default
      exact .inr ⟨⟨before, fs, after⟩, hloop, fun _ => rfl⟩
    | opened done inner outer hB hloop => simp at hnil
  · refine .inl fun n => ?_
    simp only [Draft.finish, (hB n).1]
    rfl

end Holed

/-- A jump ends up in a loop of the kind that it names, and in no loop or function inside of that.
The place is that of the jump: any other node in its stead would stand there. -/
theorem jump_surroundings {before after : List Placement} {line : Nat} {j : Jump} {kind : LoopKind}
    {tree : Node} (h : read? (before ++ (line, .jump j kind) :: after) = some tree) :
    ∃ around : Surroundings, around.loop? = some kind ∧ tree = around.tree j.node ∧
      ∀ n, read? (before ++ (line, .simple n) :: after) = some (around.tree n) := by
  simp only [read?, placeAll?_append] at h ⊢
  cases hbefore : placeAll? before .empty with
  | none => simp [hbefore] at h
  | some d =>
    simp only [hbefore, Option.bind_some, placeAll?] at h ⊢
    by_cases hloop : loopOf d.opened = some kind
    · have hplace : d.place line (.jump j kind) = .ok (d.attach j.node) := if_pos hloop
      -- at this moment the open place has the innermost loop that the check looked for
      have hholed : Holed kind fun n => (d.attach (Frame.fillAll [] n)).1 := holed_attach d hloop
      simp only [hplace] at h
      rcases hholed.placeAll after with hnone | ⟨D, hD, hholed⟩
      · rw [show placeAll? after (d.attach j.node).1 = none from hnone j.node] at h
        cases h
      · have hrest (n : Node) : placeAll? after (d.attach n).1 = some (D n) := hD n
        simp only [hrest, Option.bind_some] at h
        rcases hholed.finish with hnone | ⟨around, hkind, htree⟩
        · rw [hnone] at h
          cases h
        · rw [htree] at h
          refine ⟨around, hkind, (Option.some.inj h).symm, fun n => ?_⟩
          simp only [place, hrest, Option.bind_some, htree]
    · have hplace : d.place line (.jump j kind) = .error (.jumpOutside j.word kind.word) :=
        if_neg hloop
      simp [hplace] at h

end Draft
end LineBasic
