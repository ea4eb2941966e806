import LineBasic.Proofs.Spine

/-!
# Constructs that are dropped

A tree that is built in place goes through the same calls as a reader with a draft. After each call
the stack goes along the last children of the tree, so that taking away the last child of the root
takes away the construct that is open, and nothing else.

* `Scaffold.Holds` : a scaffold shows a draft; `Scaffold.Holds.place` : a
  statement does the same in both.
* `Scaffold.Follows.read` : so do the entries of a piece.
* `Scaffold.Matches.perform` : so do calls, and `Scaffold.Matches.seen_eq` :
  they answer in the same way.
* `Scaffold.abandon_keeps_finished` : what is open, and what is left when it is dropped.
-/

namespace LineBasic

open Cells (root)

/-! ### Constructs and heads -/

namespace BlockHead

theorem loop?_control (h : BlockHead) : h.control.loop? = h.loop? := by
  cases h with
  | closure kind => cases kind <;> rfl
  | _ => rfl

theorem closure?_control (h : BlockHead) : h.control.closure? = h.closure? := by
  cases h with
  | closure kind => cases kind <;> rfl
  | _ => rfl

theorem closing_control (h : BlockHead) : h.control.closing = h.closing := by
  cases h with
  | closure kind => cases kind <;> rfl
  | _ => rfl

theorem closedBy_control (h : BlockHead) (closer : Closer) :
    h.control.closedBy closer = h.closedBy closer := by
  cases h with
  | closure kind => cases kind <;> cases closer <;> rfl
  | _ => cases closer <;> rfl

end BlockHead

theorem Draft.isSome_attach (d : Draft) (n : Node) :
    (d.attach n).2.isSome = !(d.attach n).1.isOpen := by
  obtain ⟨done, _ | ⟨b, bs⟩⟩ := d <;> rfl

/-- The constructs around the blocks of a stack are those of the draft, and there is
none around the root. -/
theorem Cells.Spine.controls {cells : Cells} {all finished opens : List CellId}
    {bs : List OpenBlock} {inner : Option CellId} {blocks : List (CellId × Nat)}
    (h : cells.Spine all finished bs inner blocks opens) :
    blocks.map (fun b => cells.parentControl? b.1) =
      bs.map (fun b => some b.head.control) ++ [none] := by
  induction h with
  | base cell => simp [parentControl?, parent?, cell]
  | block outer site construct guards body statements ih =>
    rw [List.map_cons, ih]
    simp [parentControl?, parent?, control?, body, construct, Content.control?]

namespace Scaffold

/-- A scaffold shows a draft, with the finished nodes of the root and the nodes along the spine. -/
def Holds (s : Scaffold) (finished opens : List CellId) (d : Draft) : Prop :=
  Cells.Draws s.cells opens finished d none s.blocks opens

variable {s : Scaffold} {finished opens : List CellId} {d : Draft}

namespace Holds

theorem exists_target (h : s.Holds finished opens d) :
    ∃ line rest, s.blocks = (s.target, line) :: rest ∧
      Cells.Draws s.cells opens finished d none ((s.target, line) :: rest) opens := by
  obtain ⟨target, line, rest, others, hblocks, -⟩ := h.spine.exists_blocks
  have htarget : s.blocks = (s.target, line) :: rest := by simp [Scaffold.target, hblocks]
  exact ⟨line, rest, htarget, htarget ▸ h⟩

theorem isOpen_eq (h : s.Holds finished opens d) : s.isOpen = d.isOpen := by
  have hlength := congrArg List.length h.spine.controls
  obtain ⟨done, _ | ⟨b, bs⟩⟩ := d <;> simp_all [isOpen, Draft.isOpen]

theorem control?_eq (h : s.Holds finished opens d) :
    s.control? = d.opened.head?.map fun b => b.head.control := by
  have hcontrols := h.spine.controls
  obtain ⟨line, rest, hblocks, -⟩ := h.exists_target
  rw [hblocks] at hcontrols
  obtain ⟨done, _ | ⟨b, bs⟩⟩ := d <;> exact (List.cons.inj hcontrols).1

theorem closure?_eq (h : s.Holds finished opens d) : s.closure? = d.closure? := by
  have hcontrols := h.spine.controls
  calc s.closure?
      = (s.blocks.map fun b => s.cells.parentControl? b.1).findSome? fun c =>
        c.bind Control.closure? := by
        simp [closure?, List.findSome?_map, Function.comp_def]
    _ = d.closure? := by
        rw [hcontrols]
        simp [Draft.closure?, List.findSome?_append, List.findSome?_map, Function.comp_def,
          BlockHead.closure?_control]

theorem loopOf_eq {cells : Cells} {bs : List OpenBlock} {blocks : List (CellId × Nat)}
    (h : blocks.map (fun b => cells.parentControl? b.1) =
      bs.map (fun b => some b.head.control) ++ [none]) :
    loopOf cells blocks = Draft.loopOf bs := by
  induction bs generalizing blocks with
  | nil =>
    obtain ⟨b, rfl, hb⟩ := List.map_eq_singleton_iff.1 h
    simp [loopOf, Draft.loopOf, hb]
  | cons b bs ih =>
    obtain ⟨b', rest, rfl, hb', hrest⟩ := List.map_eq_cons_iff.1 h
    have hloop : (some b.head.control).bind Control.loop? = b.head.loop? := b.head.loop?_control
    have hclosure : (some b.head.control).bind Control.closure? = b.head.closure? :=
      b.head.closure?_control
    cases hkind : b.head.loop? with
    | some kind => simp only [loopOf, Draft.loopOf, hb', hloop, hkind]
    | none => cases hdefines : b.head.closure? <;>
        simp only [loopOf, Draft.loopOf, hb', hloop, hkind, hclosure, hdefines, ih hrest]

end Holds

/-- What a statement does in a scaffold and in its draft: it fails in the same way, or it leaves a
scaffold that holds the draft that it leaves. In that case it hands out as many nodes as there are
new ones at the root, and it is complete at the top level if it hands out one. -/
inductive Agrees (s : Scaffold) :
    Except SyntaxFault (Scaffold × Bool) → Except SyntaxFault (Draft × Option Node) → Prop
  | error (f : SyntaxFault) : Agrees s (.error f) (.error f)
  | ok {s' : Scaffold} {complete : Bool} {r : Draft × Option Node} (new opens : List CellId)
      (holds : s'.Holds (s.finished ++ new) opens r.1)
      (same : s' = { s with cells := s'.cells, blocks := s'.blocks })
      (length : new.length = r.2.toList.length) (told : (complete && !r.1.isOpen) = r.2.isSome) :
      Agrees s (.ok (s', complete)) (.ok r)

namespace Holds

/-- A node is complete, and hangs in the innermost block. -/
theorem of_attach {cells : Cells} {blocks : List (CellId × Nat)} {top : CellId} {n : Node}
    (h : Cells.Draws cells opens (s.finished ++ ((d.attach n).2.map fun _ => top).toList)
      (d.attach n).1 none blocks opens) :
    Agrees s (.ok ({ s with cells := cells, blocks := blocks }, true)) (.ok (d.attach n)) := by
  refine .ok ((d.attach n).2.map fun _ => top).toList opens h rfl ?_ (Draft.isSome_attach d n).symm
  cases (d.attach n).2 <;> rfl

/-- A node that comes whole from a line. -/
theorem attach (h : s.Holds s.finished opens d) (n : Node) :
    Agrees s (.ok (s.attach n, true)) (.ok (d.attach n)) := by
  obtain ⟨line, rest, hblocks, hdraws⟩ := h.exists_target
  have hattach := hdraws.attach n
  rw [← hblocks] at hattach
  exact of_attach hattach

/-- A construct is added to a node on the way from the innermost block. -/
theorem raise_of_draws (head : BlockHead) {cells : Cells} {blocks rest : List (CellId × Nat)}
    {target holder top : CellId} {path : List CellId} {line₀ : Nat}
    (hblocks : blocks = (target, line₀) :: rest)
    (h : Cells.Draws (cells.grow holder (.control head.control)) (cells.length :: (path ++ opens))
      s.finished d (some top) ((target, line₀) :: rest) opens)
    (site : Cells.Site (cells.grow holder (.control head.control)) (cells.length :: (path ++ opens))
      target head top cells.length holder path)
    (sorted : (cells.length :: (path ++ opens)).Pairwise (· > ·)) (line : Nat) :
    Agrees s
      (.ok (Scaffold.raise { s with cells := cells, blocks := blocks } holder head.control
        (head.guards (.literal .nothing)) line, false))
      (.ok (d.enter head line, none)) := by
  obtain ⟨block, hblock⟩ : ∃ block,
      (cells.raise holder head.control (head.guards (.literal .nothing))).length = block + 1 :=
    ⟨_, Cells.length_growBody⟩
  have hraise := h.raise site Cells.grow_new sorted line hblock
  refine .ok [] (block :: cells.length :: (path ++ opens)) ?_ rfl rfl rfl
  rw [List.append_nil, Holds, Scaffold.raise, hblock, hblocks]
  exact hraise

/-- A construct that is not a branch. -/
theorem raise (h : s.Holds s.finished opens d) (head : BlockHead) (single : head.isBranch = false)
    (line : Nat) :
    Agrees s (.ok (s.raise s.target head.control (head.guards (.literal .nothing)) line, false))
      (.ok (d.enter head line, none)) := by
  obtain ⟨line₀, rest, hblocks, hdraws⟩ := h.exists_target
  exact raise_of_draws head hblocks (hdraws.grow _) (.alone single)
    (.cons hdraws.spine.lt_length hdraws.sorted) line

/-- A chain with its first branch. -/
theorem raiseChain (h : s.Holds s.finished opens d) (guard : Node) (line : Nat) :
    Agrees s (.ok (s.raiseChain guard line, false))
      (.ok (d.enter (.branch false guard []) line, none)) := by
  obtain ⟨line₀, rest, hblocks, hdraws⟩ := h.exists_target
  have hlt := hdraws.spine.lt_length
  have hcell : (s.cells.grow s.target (.control .chain))[s.cells.length]? =
      some ⟨.control .chain, [], none, some s.target⟩ := Cells.grow_new
  have hsorted : (s.cells.length :: opens).Pairwise (· > ·) := .cons hlt hdraws.sorted
  have hchain := (hdraws.grow (.control .chain)).grow_beside (.head _) hdraws.spine.length_not_mem
    (.control (.branch false))
  refine raise_of_draws (.branch false guard []) hblocks hchain
    (.chained (Cells.grow_parent hcell) .nil) (.cons (fun i hi => ?_) hsorted) line
  rw [Cells.length_grow]
  rcases List.mem_cons.1 hi with rfl | hi
  · exact Nat.lt_succ_self _
  · exact Nat.lt_succ_of_lt (hlt i hi)

/-- A further branch of a chain. The branch before it is finished. -/
theorem raiseBranch {done nodes : Array Node} {firstGuard : Node} {earlier : List Node}
    {first : Nat} {bs : List OpenBlock}
    (h : s.Holds s.finished opens ⟨done, ⟨.branch false firstGuard earlier, first, nodes⟩ :: bs⟩)
    (word : String) (fallback : Bool) (guard : Node) (line : Nat) :
    Agrees s ((s.nextBranch word fallback guard line).map fun s' => (s', false))
      (.ok (Draft.enter ⟨done, bs⟩ (.branch fallback guard
        (OpenBlock.branches ⟨.branch false firstGuard earlier, first, nodes⟩)) line, none)) := by
  have hcontrol := h.control?_eq
  obtain ⟨hspine, hsorted, hdone⟩ := h
  generalize hblocks : s.blocks = stack at hspine
  cases hspine with
  | @block b bs inner top owner holder block below line₀ blocks path opens ids gs outer site
    construct guards body
      statements =>
    obtain ⟨rfl, rfl, hsite⟩ :=
      site.nextBranch fallback guard construct guards (by simpa using body) statements
      hsorted
    obtain ⟨-, hinner⟩ := List.pairwise_cons.1 hsorted
    obtain ⟨howner, hinner⟩ := List.pairwise_cons.1 hinner
    obtain ⟨hchain, hopens⟩ := List.pairwise_cons.1 hinner
    have hpop : s.pop = { s with cells := s.cells, blocks := (below, line₀) :: blocks } := by
      simp [pop, isOpen, hblocks]
    have hnext : s.nextBranch word fallback guard line =
        .ok (s.pop.raise holder (.branch fallback) [guard] line) := by
      simp [Scaffold.nextBranch, hcontrol, construct?, target, hblocks, Cells.parent?,
        body, construct, BlockHead.control]
    have hdraws : Cells.Draws s.cells (holder :: opens) s.finished ⟨done, bs⟩ (some holder)
        ((below, line₀) :: blocks) opens :=
      (show Cells.Draws _ _ _ ⟨done, bs⟩ _ _ _ from ⟨outer, hopens, hdone⟩).fewer fun i hi =>
        .tail _ (.tail _ hi)
    rw [hnext, hpop]
    refine raise_of_draws (.branch fallback guard _) rfl
      (hdraws.grow_beside (.head _) (fun hi => Nat.lt_irrefl _ (hchain _ hi)) _) hsite
      (.cons (fun i hi => ?_) hinner) line
    exact Nat.lt_trans (howner i hi) (Cells.lt_length construct)

theorem nextBranch (h : s.Holds s.finished opens d) (word : String) (fallback : Bool) (guard : Node)
    (line : Nat) :
    Agrees s ((s.nextBranch word fallback guard line).map fun s' => (s', false))
      ((d.nextBranch word fallback guard line).map fun d' => (d', none)) := by
  obtain ⟨done, _ | ⟨⟨head, first, nodes⟩, bs⟩⟩ := d
  · rw [Scaffold.nextBranch, h.control?_eq]
    exact .error _
  · cases head with
    | branch earlierFallback firstGuard earlier =>
      cases earlierFallback with
      | true =>
        rw [Scaffold.nextBranch, h.control?_eq]
        exact .error _
      | false => exact h.raiseBranch word fallback guard line
    | closure kind =>
      rw [Scaffold.nextBranch, h.control?_eq]
      cases kind <;> exact .error _
    | _ =>
      rw [Scaffold.nextBranch, h.control?_eq]
      exact .error _

/-- The innermost construct is closed. The guard of a `DO` loop comes with its last line. -/
theorem leave {nodes : Array Node} {b : OpenBlock} {bs : List OpenBlock}
    (h : s.Holds s.finished opens ⟨nodes, b :: bs⟩) :
    ∃ owner, s.construct? = some owner ∧
      Agrees s (.ok (s.pop, true)) (.ok (Draft.attach ⟨nodes, bs⟩ b.closedNode)) ∧
      (b.head = .doLoop → ∀ again,
        Agrees s (.ok ({ s.pop with cells := s.pop.cells.replaceFirst owner again }, true))
          (.ok (Draft.attach ⟨nodes, bs⟩ (b.node again)))) := by
  obtain ⟨hspine, hsorted, hdone⟩ := h
  generalize hblocks : s.blocks = stack at hspine
  cases hspine with
  | @block b bs inner top owner holder block below line₀ blocks path opens ids gs outer site
    construct guards body
      statements =>
    have hbody : s.cells[block]? = some ⟨.control .block, ids, none, some owner⟩ := by
      simpa using body
    have hpop : s.pop = { s with cells := s.cells, blocks := (below, line₀) :: blocks } := by
      simp [pop, isOpen, hblocks]
    refine ⟨owner, by simp [construct?, target, hblocks, Cells.parent?, body], ?_,
      fun hloop again => ?_⟩
    · rw [hpop]
      have keep : ∀ i c, i ∉ block :: owner :: (path ++ opens) → s.cells[i]? = some c →
          i ∉ opens ∧ s.cells[i]? = some c := fun i c hi hc =>
        ⟨fun hmem => hi (.tail _ (.tail _ (List.mem_append_right _ hmem))), hc⟩
      exact of_attach
        (.close outer site hbody statements hsorted hdone (fun _ _ _ hc => hc) construct
        (guards.mono keep))
    · rw [hpop]
      rw [hloop] at guards
      obtain ⟨g, rfl⟩ : ∃ g, gs = [g] := List.length_eq_one_iff.1 guards.length_eq
      obtain ⟨hconstruct, hguard, hothers⟩ := Cells.replaceFirst_spec construct again
      have hguards :
          Cells.Under (s.cells.replaceFirst owner again) opens owner [s.cells.length] [again] :=
        .cons ⟨Cells.lt_length construct, .whole outer.length_not_mem hguard⟩ .nil
      exact of_attach (.close outer site hbody statements hsorted hdone hothers hconstruct
        (by rw [hloop]; exact hguards))

/-- What a closing statement finds. -/
theorem close_eq {nodes : Array Node} {b : OpenBlock} {bs : List OpenBlock}
    (h : s.Holds s.finished opens ⟨nodes, b :: bs⟩) {owner : CellId}
    (howner : s.construct? = some owner) (these : Control → Bool) (fault : SyntaxFault) :
    s.close these fault = if these b.head.control then .ok (owner, s.pop) else .error fault := by
  rw [Scaffold.close, h.control?_eq, howner]
  rfl

theorem close (h : s.Holds s.finished opens d) (closer : Closer) :
    Agrees s ((s.close (fun c => c.closedBy closer) (.closerWithout closer.words closer.opener)).map
      fun r => (r.2, true)) (d.close closer) := by
  obtain ⟨nodes, _ | ⟨b, bs⟩⟩ := d
  · rw [Scaffold.close, h.control?_eq]
    exact .error _
  · obtain ⟨owner, howner, hclosed, -⟩ := h.leave
    rw [h.close_eq howner, BlockHead.closedBy_control]
    simp only [Draft.close]
    split
    · exact hclosed
    · exact .error _

theorem closeDo (h : s.Holds s.finished opens d) (again : Node) :
    Agrees s ((s.close (fun c => c = .doLoop) (.closerWithout "LOOP" "DO")).map fun r =>
      ({ r.2 with cells := r.2.cells.replaceFirst r.1 again }, true)) (d.closeDo again) := by
  obtain ⟨nodes, _ | ⟨⟨head, first, inside⟩, bs⟩⟩ := d
  · rw [Scaffold.close, h.control?_eq]
    exact .error _
  · obtain ⟨owner, howner, -, hclosed⟩ := h.leave
    rw [h.close_eq howner]
    cases head with
    | doLoop => exact hclosed rfl again
    | closure kind => cases kind <;> exact .error _
    | _ => exact .error _

theorem closeFor (h : s.Holds s.finished opens d) (named : Option String) :
    Agrees s ((s.closeFor named).map fun s' => (s', true)) (d.closeFor named) := by
  unfold Scaffold.closeFor
  rw [h.control?_eq]
  obtain ⟨nodes, _ | ⟨⟨head, first, inside⟩, bs⟩⟩ := d
  · exact .error _
  · obtain ⟨owner, -, hclosed, -⟩ := h.leave
    cases head with
    | forLoop counter start limit step =>
      cases named with
      | none => exact hclosed
      | some name =>
        simp only [Draft.closeFor, List.head?_cons, Option.map_some, BlockHead.control]
        split
        · exact hclosed
        · exact .error _
    | closure kind => cases kind <;> exact .error _
    | _ => exact .error _

theorem placeJump (h : s.Holds s.finished opens d) (j : Jump) (kind : LoopKind) :
    Agrees s ((s.placeJump j kind).map fun s' => (s', true)) (d.placeJump j kind) := by
  rw [Scaffold.placeJump, Draft.placeJump, loopOf_eq h.spine.controls]
  split
  · exact h.attach j.node
  · exact .error _

theorem placeReturn (h : s.Holds s.finished opens d) (value : Option Node) :
    Agrees s ((s.placeReturn value).map fun s' => (s', true)) (d.placeReturn value) := by
  unfold Scaffold.placeReturn Draft.placeReturn
  rw [h.closure?_eq]
  cases d.closure? with
  | none => exact .error _
  | some kind =>
    cases kind with
    | subroutine => cases value with
      | none => exact h.attach _
      | some n => exact .error _
    | function => cases value <;> exact h.attach _

/-- A statement does the same in a scaffold and in its draft. -/
theorem place (h : s.Holds s.finished opens d) (line : Nat) (st : Statement) :
    Agrees s (s.place line st) (d.place line st) := by
  cases st with
  | simple n => exact h.attach n
  | openIf guard => exact h.raiseChain guard line
  | elseIf guard => exact h.nextBranch "ELSEIF" false guard line
  | otherwise => exact h.nextBranch "ELSE" true _ line
  | openWhile guard => exact h.raise (.whileLoop guard) rfl line
  | openDo => exact h.raise .doLoop rfl line
  | openFor counter start limit step => exact h.raise (.forLoop counter start limit step) rfl line
  | openClosure kind name params => exact h.raise (.closure kind name params) rfl line
  | close closer => exact h.close closer
  | loop guard => exact h.closeDo guard
  | next named => exact h.closeFor named
  | jump j kind => exact h.placeJump j kind
  | giveBack value => exact h.placeReturn value
  | use name => exact .ok [] opens (by rwa [List.append_nil]) rfl rfl rfl

end Holds

/-! ### Pieces -/

/-- What a statement completes is noted. -/
theorem Agrees.note {s' : Scaffold} {complete : Bool} {r : Draft × Option Node}
    (h : Agrees s (.ok (s', complete)) (.ok r)) :
    ∃ new opens, (s'.note complete).Holds (s.finished ++ new) opens r.1 ∧
      s'.note complete = { s with
        cells := s'.cells, blocks := s'.blocks,
        completed := s.completed ++ new, finished := s.finished ++ new } ∧
      new.length = r.2.toList.length := by
  cases h with
  | ok new opens holds same length told =>
    refine ⟨new, opens, ?_⟩
    obtain ⟨d, _ | n⟩ := r
    · obtain rfl : new = [] := List.eq_nil_of_length_eq_zero length
      have hnote : s'.note complete = s' := by
        rw [Scaffold.note, holds.isOpen_eq, told]
        rfl
      rw [hnote]
      exact ⟨holds, by simpa using same, length⟩
    · obtain ⟨id, rfl⟩ := List.length_eq_one_iff.1 length
      have hclosed : d.opened = [] := by
        obtain ⟨-, hopen⟩ := Bool.and_eq_true_iff.1 told
        simpa [Draft.isOpen] using hopen
      have hroot := Cells.Draws.root_eq holds hclosed
      have hnote : s'.note complete =
          { s' with completed := s'.completed ++ [id], finished := s'.finished ++ [id] } := by
        rw [Scaffold.note, holds.isOpen_eq, told]
        simp [Cells.lastChild?, hroot]
      rw [hnote]
      refine ⟨holds, ?_, length⟩
      rw [same]

/-- A scaffold goes along with the progress of a reader: what is completed is what is handed out. -/
structure Follows (s : Scaffold) (p : Progress) : Prop where
  holds : ∃ opens, s.Holds s.finished opens p.draft
  completed : ∃ ids ns, s.finished = ids ++ s.completed ∧
    p.draft.done.toList = ns ++ p.handed.toList ∧
    ids.length = ns.length

namespace Follows

variable {p : Progress}

theorem map_read (h : s.Follows p) : s.completed.map s.cells.read = p.handed.toList := by
  obtain ⟨⟨opens, holds⟩, ids, ns, hfinished, hdone, hlength⟩ := h
  have hread := holds.done.map_read
  rw [hfinished, hdone, List.map_append] at hread
  exact (List.append_inj hread (by rw [List.length_map, hlength])).2

/-- Step: an entry. -/
theorem enter (h : s.Follows p) (e : Entry) :
    (∃ f, s.enter e = .error f ∧ e.place p.draft = .error f) ∨
    ∃ s' r, s.enter e = .ok s' ∧ e.place p.draft = .ok r ∧ s'.Follows (p.advance r) ∧
    s'.line = s.line := by
  cases e with
  | fault f => exact .inl ⟨f, rfl, rfl⟩
  | statement q =>
    obtain ⟨⟨opens, holds⟩, ids, ns, hfinished, hdone, hlength⟩ := h
    have hplace := holds.place q.1 q.2
    rw [Scaffold.enter, Entry.place]
    rcases hs : s.place q.1 q.2 with f | ⟨s', complete⟩ <;>
      rcases hr : p.draft.place q.1 q.2 with f' | r
    · rw [hs, hr] at hplace
      cases hplace
      exact .inl ⟨_, rfl, rfl⟩
    · rw [hs, hr] at hplace
      cases hplace
    · rw [hs, hr] at hplace
      cases hplace
    · rw [hs, hr] at hplace
      obtain ⟨new, opens', hnoted, hnote, hnew⟩ := hplace.note
      refine .inr ⟨s'.note complete, r, rfl, rfl, ⟨⟨opens', ?_⟩, ids, ns, ?_, ?_, hlength⟩, ?_⟩
      · rw [Progress.advance_draft]
        rw [hnote] at hnoted ⊢
        exact hnoted
      · rw [hnote, hfinished, List.append_assoc]
      · rw [Progress.advance_draft, Progress.advance_handed, Draft.place_done hr, hdone,
          List.append_assoc]
      · rw [hnote]

/-- Run: entries up to the first that fails. -/
theorem read (h : s.Follows p) (es : List Entry) :
    (s.read es).1.Follows (p.read es).1 ∧ (s.read es).2 = (p.read es).2 ∧
    (s.read es).1.line = s.line := by
  induction es generalizing s p with
  | nil => exact ⟨h, rfl, rfl⟩
  | cons e es ih =>
    rw [Scaffold.read, Progress.read]
    obtain ⟨f, hs, hp⟩ | ⟨s', r, hs, hp, hfollows, hline⟩ := h.enter e
    · rw [hs, hp]
      exact ⟨h, rfl, rfl⟩
    · rw [hs, hp]
      obtain ⟨hread, hfault, hlines⟩ := ih hfollows
      exact ⟨hread, hfault, hlines.trans hline⟩

end Follows

/-! ### Calls -/

/-- A scaffold stands where a reader stands, between two calls. -/
structure Matches (s : Scaffold) (r : Reader) : Prop where
  holds : ∃ opens, s.Holds s.finished opens r.draft
  line : s.line = r.line

namespace Matches

variable {r : Reader}

theorem isOpen_eq (h : s.Matches r) : s.isOpen = r.isOpen := by
  obtain ⟨opens, holds⟩ := h.holds
  exact holds.isOpen_eq

theorem map_read (h : s.Matches r) : s.finished.map s.cells.read = r.draft.done.toList := by
  obtain ⟨opens, holds⟩ := h.holds
  exact holds.done.map_read

theorem finish_eq (h : s.Matches r) : s.finish = r.finish := by
  obtain ⟨opens, holds⟩ := h.holds
  obtain ⟨⟨nodes, _ | ⟨b, bs⟩⟩, line⟩ := r
  · have hroot := Cells.Draws.root_eq holds rfl
    have hclosed : s.isOpen = false := holds.isOpen_eq
    have hdone : s.cells.Under [] root s.finished nodes.toList :=
      holds.done.mono fun i c hi hc => ⟨List.not_mem_nil, hc⟩
    have hread := (Cells.shows_control List.not_mem_nil hroot hdone).read
    simp only [Scaffold.finish, hclosed, hread]
    rfl
  · have hopen : s.isOpen = true := holds.isOpen_eq
    have hline : (s.blocks.headD (root, 0)).2 = b.line := by
      have hspine := holds.spine
      generalize s.blocks = blocks at hspine
      cases hspine with
      | block => rfl
    rw [Scaffold.finish, hopen, holds.control?_eq, hline]
    show Except.error _ = Except.error _
    rw [BlockHead.closing_control]

theorem parse (h : s.Matches r) (catalog : Catalog) (source : String) :
    (s.parse catalog source).1.Matches (r.parse catalog source).1 ∧
      (s.parse catalog source).2 = (r.parse catalog source).2 := by
  obtain ⟨⟨opens, holds⟩, hline⟩ := h
  have hstart : Follows { s with completed := [], line := s.line + max 1 (Text.lineCount source) }
      ⟨r.draft, #[]⟩ :=
    ⟨⟨opens, holds⟩, s.finished, r.draft.done.toList, by simp, by simp, holds.done.length_eq⟩
  have hread := hstart.read (Entry.ofPiece catalog s.line source)
  simp only [Scaffold.parse, Reader.parse, Reading.piece_eq_read]
  rw [← hline]
  generalize Scaffold.read _ _ = result at hread ⊢
  generalize Progress.read _ _ = expected at hread ⊢
  obtain ⟨s', fault⟩ := result
  obtain ⟨p, fault'⟩ := expected
  obtain ⟨hfollows, rfl, hlines⟩ := hread
  cases fault with
  | none => exact ⟨⟨hfollows.holds, hlines⟩, congrArg Except.ok hfollows.map_read⟩
  | some e => exact ⟨⟨hfollows.holds, hlines⟩, rfl⟩

theorem abandon (h : s.Matches r) :
    s.abandon.Matches r.abandon ∧
    s.abandon.cells[root]? = some ⟨.control .program, s.finished, none, none⟩ ∧
      s.abandon.finished = s.finished := by
  obtain ⟨⟨opens, holds⟩, hline⟩ := h
  by_cases hclosed : r.draft.opened = []
  · have hopen : s.isOpen = false := by rw [holds.isOpen_eq, Draft.isOpen, hclosed]; rfl
    have habandon : s.abandon = { s with completed := [] } := by simp [Scaffold.abandon, hopen]
    have hdraft : r.draft.abandon = r.draft := by rw [Draft.abandon, ← hclosed]
    rw [habandon, Reader.abandon, hdraft]
    exact ⟨⟨⟨opens, holds⟩, hline⟩, Cells.Draws.root_eq holds hclosed, rfl⟩
  · have hopen : s.isOpen = true := by
      rw [holds.isOpen_eq, Draft.isOpen]
      simpa using hclosed
    obtain ⟨hblocks, hdraws⟩ := holds.abandon hclosed
    rw [Scaffold.abandon, if_pos hopen, hblocks]
    exact ⟨⟨⟨[root], hdraws⟩, hline⟩, hdraws.root_eq rfl, rfl⟩

theorem perform (h : s.Matches r) (c : Reader.Call) :
    (s.perform c).1.Matches (c.run r).1 ∧ (s.perform c).2 = (c.run r).2 := by
  cases c with
  | parse catalog source => exact h.parse catalog source
  | abandon => exact ⟨h.abandon.1, rfl⟩

theorem after (h : s.Matches r) (calls : List Reader.Call) :
    (s.after calls).Matches (r.after calls) := by
  induction calls generalizing s r with
  | nil => exact h
  | cons c cs ih => exact ih (h.perform c).1

theorem seen_eq (h : s.Matches r) (calls : List Reader.Call) :
    seen calls s = Reader.seen calls r := by
  induction calls generalizing s r with
  | nil => rfl
  | cons c cs ih =>
    obtain ⟨hmatches, hanswer⟩ := h.perform c
    rw [seen, Reader.seen, hanswer, hmatches.isOpen_eq, hmatches.finish_eq, ih hmatches]

end Matches

theorem start_matches : start.Matches .start :=
  ⟨⟨[root], .base rfl, List.pairwise_singleton _ _, .nil⟩, rfl⟩

theorem holding_matches (nodes : List Node) (line : Nat) :
    (holding nodes line).Matches ⟨⟨nodes.toArray, []⟩, line⟩ := by
  refine ⟨⟨[root], .base (by simp [holding, root]), List.pairwise_singleton _ _, ?_⟩, rfl⟩
  refine Cells.forall₂_iff_getElem?.2 ⟨by simp [holding], fun k i n hi hn => ?_⟩
  have hnode : nodes[k]? = some n := by simpa using hn
  obtain ⟨hk, rfl⟩ := List.getElem?_eq_some_iff.1 hi
  have hid : (holding nodes line).finished[k] = k + 1 := by simp [holding, Nat.add_comm]
  have hcell : (holding nodes line).cells[k + 1]? = some ⟨.whole n, [], none, some root⟩ := by
    simp [holding, hnode]
  rw [hid]
  exact ⟨Nat.succ_pos k,
    .whole (List.not_mem_cons_of_ne_of_not_mem (Nat.succ_ne_zero k) List.not_mem_nil) hcell⟩

/-! ### Between calls -/

namespace Matches

variable {r : Reader}

theorem upright (h : s.Matches r) : s.Upright := by
  obtain ⟨⟨opens, holds⟩, -⟩ := h
  exact ⟨holds.spine.bottom.2.1, holds.spine.continues⟩

/-- A construct is open if the last child of the root is one that was never finished. -/
theorem isOpen_iff (h : s.Matches r) :
    s.isOpen = true ↔ ∃ id, s.cells.lastChild? root = some id ∧ id ∉ s.finished ∧
      ∃ c, s.cells.control? id = some c := by
  obtain ⟨⟨opens, holds⟩, -⟩ := h
  obtain ⟨-, -, last, hcell, -, hcons⟩ := holds.spine.bottom
  constructor
  · intro hopen
    have hopened : r.draft.opened ≠ [] := by simpa [holds.isOpen_eq, Draft.isOpen] using hopen
    obtain ⟨id, rfl, hmem, hcontrol⟩ := hcons hopened
    exact ⟨id, by simp [Cells.lastChild?, hcell],
      fun hfinished => (holds.done.newer_closed id hfinished).2 hmem, hcontrol⟩
  · rintro ⟨id, hid, hnot, -⟩
    by_contra hclosed
    have hopened : r.draft.opened = [] := by simpa [holds.isOpen_eq, Draft.isOpen] using hclosed
    refine hnot (List.mem_of_getLast? ?_)
    simpa [Cells.lastChild?, Cells.Draws.root_eq holds hopened] using hid

theorem finish_iff (h : s.Matches r) : (∃ n, s.finish = .ok n) ↔ s.isOpen = false := by
  rw [h.finish_eq, h.isOpen_eq]
  obtain ⟨⟨nodes, _ | ⟨b, bs⟩⟩, line⟩ :=
    r <;> simp [Reader.finish, Draft.finish, Reader.isOpen, Draft.isOpen]

end Matches

/-- After any calls the stack has the root at the bottom, and each further entry is the body of a
construct that is the last child of the entry below, or of a chain that is. So a construct is open
if the root has a last child that is unfinished, and the program can be had if none is. After the
construct that is open was dropped, the root has the finished nodes as its children, in order, and
nothing that can be seen later differs from what a scaffold with only these nodes shows. All of this
is what a reader shows. -/
theorem abandon_keeps_finished (calls : List Reader.Call) :
    let s := after calls start
    let nodes := s.finished.map s.abandon.cells.read
    seen calls start = Reader.seen calls .start ∧ s.Upright ∧
    (s.isOpen = true ↔ ∃ id, s.cells.lastChild? root = some id ∧ id ∉ s.finished ∧
      ∃ c, s.cells.control? id = some c) ∧
    ((∃ n, s.finish = .ok n) ↔ s.isOpen = false) ∧
    s.abandon.isOpen = false ∧ s.abandon.cells[root]?.map Cell.children = some s.finished ∧
    nodes = (Reader.after calls .start).draft.done.toList ∧
      s.abandon.finish = .ok (.program nodes) ∧
    ∀ later, seen later s.abandon = seen later (holding nodes s.line) := by
  intro s nodes
  have hmatches : s.Matches (Reader.after calls .start) := start_matches.after calls
  obtain ⟨habandon, hroot, hfinished⟩ := hmatches.abandon
  have hnodes : nodes = (Reader.after calls .start).draft.done.toList := by
    have hread := habandon.map_read
    rwa [hfinished] at hread
  refine ⟨start_matches.seen_eq calls, hmatches.upright, hmatches.isOpen_iff, hmatches.finish_iff,
    habandon.isOpen_eq, by rw [hroot]; rfl, hnodes, ?_, fun later => ?_⟩
  · rw [habandon.finish_eq, hnodes]
    rfl
  · have hholding := holding_matches nodes s.line
    rw [hnodes, hmatches.line] at hholding
    rw [hnodes, hmatches.line, hholding.seen_eq, habandon.seen_eq]
    rfl

/-- A loop and a branch inside it are dropped, and the assignment before them stays. -/
example :
    let s := after [.parse [] "A = 1\nWHILE A < 3\nIF A = 2 THEN"] start
    s.blocks.map Prod.snd = [3, 2, 0] ∧ s.cells.lastChild? root = some 2 ∧ s.finished = [1] ∧
      s.abandon.blocks = [(root, 0)] ∧ s.abandon.cells.lastChild? root = some 1 := by
  decide +kernel

end Scaffold

end LineBasic
