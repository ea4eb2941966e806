import LineBasic.Proofs.SourceLines

/-!
# What a draft holds

While a program is read, the finished statements and those inside the open constructs fit the places
where they stand, and bind words only. So does the whole tree at the end.

* `placeIn` : the place inside open constructs.
* `Draft.Proper` : the invariant, kept by every statement
  (`Draft.place_proper`) and by every module.
* `Reader.program?_placed` : the tree of a program that was read piece by piece.
-/

namespace LineBasic

/-- The place inside open constructs, the innermost first. -/
def placeIn (opened : List OpenBlock) : Place :=
  ⟨(Draft.loopOf opened).isSome, (opened.findSome? fun b => b.head.closure?).isSome⟩

section Places

variable {b : OpenBlock} (outer : List OpenBlock)

/-- A construct that is neither a loop nor a closure changes nothing. -/
theorem placeIn_plain (hloop : b.head.loop? = none) (hclosure : b.head.closure? = none) :
    placeIn (b :: outer) = placeIn outer := by
  simp [placeIn, Draft.loopOf, hloop, hclosure]

theorem placeIn_loop {kind : LoopKind} (hloop : b.head.loop? = some kind)
    (hclosure : b.head.closure? = none) : placeIn (b :: outer) = (placeIn outer).loop := by
  simp [placeIn, Draft.loopOf, hloop, hclosure, Place.loop]

theorem placeIn_closure {kind : ClosureKind} (hloop : b.head.loop? = none)
    (hclosure : b.head.closure? = some kind) : placeIn (b :: outer) = .call := by
  simp [placeIn, Draft.loopOf, hloop, hclosure, Place.call]

end Places

/-- The head of a construct that stands in a place. The branches before one fit that place, and none
of them is a fallback. -/
def BlockHead.Proper (outer : Place) : BlockHead → Prop
  | branch fallback guard earlier => guard.Expression ∧ (fallback = true → earlier ≠ []) ∧
      ∀ n ∈ earlier, n.Placed outer ∧ n.isBranch false = true
  | whileLoop guard => guard.Expression
  | doLoop => True
  | forLoop counter start limit step => Text.isWord counter = true ∧ start.Expression ∧
      limit.Expression ∧ step.Expression
  | closure _ name params => Text.isWord name = true ∧ IsParameters params

/-- Open constructs that stand inside each other. -/
def OpenBlock.AllProper : List OpenBlock → Prop
  | [] => True
  | b :: outer => b.head.Proper (placeIn outer) ∧
      (∀ n ∈ b.statements, n.Placed (placeIn (b :: outer))) ∧ AllProper outer

/-- Everything in the draft fits the place where it stands. -/
structure Draft.Proper (d : Draft) : Prop where
  done : ∀ n ∈ d.done, n.Placed .top
  opened : OpenBlock.AllProper d.opened

/-! ### Closing a construct -/

namespace OpenBlock

variable {b : OpenBlock} {outer : List OpenBlock}

theorem body_placed (h : AllProper (b :: outer)) :
    (Node.block b.statements.toList).Placed (placeIn (b :: outer)) :=
  .block fun n hn => h.2.1 n (Array.mem_toList_iff.1 hn)

theorem branches_eq {fallback : Bool} {guard : Node} {earlier : List Node}
    (hhead : b.head = .branch fallback guard earlier) :
    b.branches = earlier ++ [.construct (.branch fallback) [guard] b.statements.toList] := by
  simp [branches, hhead]

theorem branches_placed {fallback : Bool} {guard : Node} {earlier : List Node}
    (hhead : b.head = .branch fallback guard earlier) (h : AllProper (b :: outer)) :
    ∀ n ∈ b.branches, n.Placed (placeIn outer) := by
  have hproper := h.1
  have hbody := body_placed h
  rw [placeIn_plain outer (by rw [hhead]; rfl) (by rw [hhead]; rfl)] at hbody
  rw [hhead] at hproper
  rw [branches_eq hhead]
  intro n hn
  rcases List.mem_append.1 hn with hn | hn
  · exact (hproper.2.2 n hn).1
  · rw [List.mem_singleton.1 hn]
    exact .branch hproper.1 hbody

theorem branches_isChain {fallback : Bool} {guard : Node} {earlier : List Node}
    (hhead : b.head = .branch fallback guard earlier) (h : AllProper (b :: outer)) :
    Node.isChain b.branches = true := by
  have hproper := h.1
  rw [hhead] at hproper
  obtain ⟨-, hfirst, hearlier⟩ := hproper
  have hall : earlier.all (Node.isBranch false) = true :=
    List.all_eq_true.2 fun n hn => (hearlier n hn).2
  rw [branches_eq hhead, Node.isChain, List.dropLast_concat, hall]
  simp only [Bool.and_true, Bool.and_eq_true]
  constructor
  -- only without earlier branches is this one the first, and then it is no fallback
  · cases earlier with
    | nil =>
      cases fallback with
      | false => rfl
      | true => exact absurd rfl (hfirst rfl)
    | cons n ns => exact (hearlier n (.head _)).2
  · rw [List.all_append, Bool.and_eq_true]
    refine ⟨List.all_eq_true.2 fun n hn => by simp [(hearlier n hn).2], ?_⟩
    cases fallback <;> rfl

/-- The node of a construct fits the place around the construct. -/
theorem node_placed {again : Node} (h : AllProper (b :: outer)) (ha : again.Expression) :
    (b.node again).Placed (placeIn outer) := by
  have hproper := h.1
  have hbody := body_placed h
  unfold node
  cases hhead : b.head with
  | branch fallback guard earlier =>
    exact .chain (branches_isChain hhead h) (branches_placed hhead h)
  | whileLoop guard =>
    rw [placeIn_loop outer (by rw [hhead]; rfl) (by rw [hhead]; rfl)] at hbody
    rw [hhead] at hproper
    exact .whileLoop hproper hbody
  | doLoop =>
    rw [placeIn_loop outer (by rw [hhead]; rfl) (by rw [hhead]; rfl)] at hbody
    exact .doLoop ha hbody
  | forLoop counter start limit step =>
    rw [placeIn_loop outer (by rw [hhead]; rfl) (by rw [hhead]; rfl)] at hbody
    rw [hhead] at hproper
    exact .forLoop hproper.1 hproper.2.1 hproper.2.2.1 hproper.2.2.2 hbody
  | closure kind name params =>
    rw [placeIn_closure outer (by rw [hhead]; rfl) (by rw [hhead]; rfl)] at hbody
    rw [hhead] at hproper
    exact .closure hproper.1 hproper.2.1 hproper.2.2 hbody

end OpenBlock

/-! ### Placing a statement -/

namespace Draft

variable {d : Draft} {n : Node}

theorem empty_proper : empty.Proper := ⟨by simp [empty], trivial⟩

theorem attach_proper (hd : d.Proper) (hn : n.Placed (placeIn d.opened)) :
    (d.attach n).1.Proper := by
  obtain ⟨done, opened⟩ := d
  cases opened with
  | nil =>
    refine ⟨fun m hm => ?_, trivial⟩
    rcases Array.mem_push.1 hm with hm | rfl
    · exact hd.done m hm
    · exact hn
  | cons b outer =>
    obtain ⟨hhead, hstatements, houter⟩ := hd.opened
    refine ⟨hd.done, hhead, fun m hm => ?_, houter⟩
    rcases Array.mem_push.1 hm with hm | rfl
    · exact hstatements m hm
    · exact hn

theorem enter_proper (hd : d.Proper) (head : BlockHead) (line : Nat)
    (hh : head.Proper (placeIn d.opened)) : (d.enter head line).Proper :=
  ⟨hd.done, hh, by simp, hd.opened⟩

/-- Closing the innermost construct. -/
theorem leave_proper {b : OpenBlock} {outer : List OpenBlock} {again : Node} (hd : d.Proper)
    (ho : d.opened = b :: outer) (ha : again.Expression) :
    (d.leave outer (b.node again)).1.Proper := by
  have hopened := hd.opened
  rw [ho] at hopened
  exact attach_proper ⟨hd.done, hopened.2.2⟩ (OpenBlock.node_placed hopened ha)

theorem nextBranch_proper {word : String} {fallback : Bool} {guard : Node} {line : Nat} {d' : Draft}
    (hd : d.Proper) (hg : guard.Expression) (h : d.nextBranch word fallback guard line = .ok d') :
    d'.Proper := by
  unfold nextBranch at h
  split at h
  · next b outer ho =>
    have hopened := hd.opened
    rw [ho] at hopened
    split at h
    · next guard' earlier hhead =>
      cases h
      refine ⟨hd.done,
        ⟨hg, ?_, fun n hn => ⟨OpenBlock.branches_placed hhead hopened n hn, ?_⟩⟩, by simp,
        hopened.2.2⟩
      · simp [OpenBlock.branches_eq hhead]
      · have hproper := hopened.1
        rw [hhead] at hproper
        rw [OpenBlock.branches_eq hhead] at hn
        rcases List.mem_append.1 hn with hn | hn
        · exact (hproper.2.2 n hn).2
        · rw [List.mem_singleton.1 hn]
          rfl
    · cases h
    · cases h
  · cases h

theorem close_proper {closer : Closer} {r : Draft × Option Node} (hd : d.Proper)
    (h : d.close closer = .ok r) : r.1.Proper := by
  unfold close at h
  split at h
  · next b outer ho =>
    split at h
    · cases h
      exact leave_proper hd ho (.literal _)
    · cases h
  · cases h

theorem closeDo_proper {again : Node} {r : Draft × Option Node} (hd : d.Proper)
    (ha : again.Expression) (h : d.closeDo again = .ok r) : r.1.Proper := by
  unfold closeDo at h
  split at h
  · next b outer ho =>
    split at h
    · cases h
      exact leave_proper hd ho ha
    · cases h
  · cases h

theorem closeFor_proper {named : Option String} {r : Draft × Option Node} (hd : d.Proper)
    (h : d.closeFor named = .ok r) : r.1.Proper := by
  unfold closeFor at h
  split at h
  · next b outer ho =>
    split at h
    · split at h
      · cases h
        exact leave_proper hd ho (.literal _)
      · split at h
        · cases h
          exact leave_proper hd ho (.literal _)
        · cases h
    · cases h
  · cases h

theorem placeJump_proper {j : Jump} {kind : LoopKind} {r : Draft × Option Node} (hd : d.Proper)
    (h : d.placeJump j kind = .ok r) : r.1.Proper := by
  unfold placeJump at h
  split at h
  · next hloop =>
    cases h
    exact attach_proper hd (.jump j (by simp [placeIn, hloop]))
  · cases h

theorem placeReturn_proper {value : Option Node} {r : Draft × Option Node} (hd : d.Proper)
    (hv : ∀ e ∈ value, e.Expression) (h : d.placeReturn value = .ok r) : r.1.Proper := by
  have hattach {kind : ClosureKind} (hclosure : d.closure? = some kind) :
      (d.attach (.plain .returned value.toList)).1.Proper := by
    refine attach_proper hd (.returned ?_ hv)
    rw [closure?] at hclosure
    simp [placeIn, hclosure]
  unfold placeReturn at h
  split at h
  · cases h
  · cases h
  · next hclosure _ =>
    cases h
    exact hattach hclosure

/-- Placing a statement keeps everything in its place. -/
theorem place_proper {line : Nat} {s : Statement} {r : Draft × Option Node} (hd : d.Proper)
    (hs : s.Proper) (h : d.place line s = .ok r) : r.1.Proper := by
  cases s with
  | simple n =>
    cases h
    exact attach_proper hd (hs _)
  | openIf guard =>
    cases h
    exact enter_proper hd (.branch false guard []) line ⟨hs, by simp, by simp⟩
  | elseIf guard =>
    simp only [place] at h
    cases hnext : d.nextBranch "ELSEIF" false guard line with
    | error f => simp [hnext, Except.map] at h
    | ok d' =>
      simp only [hnext, Except.map] at h
      cases h
      exact nextBranch_proper hd hs hnext
  | otherwise =>
    simp only [place] at h
    cases hnext : d.nextBranch "ELSE" true (.literal (.bool true)) line with
    | error f => simp [hnext, Except.map] at h
    | ok d' =>
      simp only [hnext, Except.map] at h
      cases h
      exact nextBranch_proper hd (.literal _) hnext
  | openWhile guard =>
    cases h
    exact enter_proper hd (.whileLoop guard) line hs
  | openDo =>
    cases h
    exact enter_proper hd .doLoop line trivial
  | openFor counter start limit step =>
    cases h
    exact enter_proper hd (.forLoop counter start limit step) line hs
  | openClosure kind name params =>
    cases h
    exact enter_proper hd (.closure kind name params) line hs
  | close closer => exact close_proper hd h
  | loop guard => exact closeDo_proper hd hs h
  | next named => exact closeFor_proper hd h
  | jump j kind => exact placeJump_proper hd h
  | giveBack value => exact placeReturn_proper hd hs h
  | use name =>
    cases h
    exact hd

end Draft

/-! ### Reading a program -/

namespace Progress

/-- Every use that succeeds keeps a property of the draft. -/
def Uses.Keeps (use : Uses) (P : Draft → Prop) : Prop :=
  ∀ ⦃name line p q⦄, P p.draft → use name line p = some q → P q.draft

theorem advance_draft (p : Progress) (r : Draft × Option Node) : (p.advance r).draft = r.1 := by
  unfold advance
  split <;> rfl

theorem step_proper {use : Uses} (hu : use.Keeps Draft.Proper) {line : Nat} {p q : Progress}
    {s : Option Statement} (hs : ∀ t ∈ s, t.Proper) (hp : p.draft.Proper)
    (h : p.step use line s = some q) : q.draft.Proper := by
  unfold step at h
  split at h
  · cases h
    exact hp
  · exact hu hp h
  · next t _ =>
    split at h
    · next r hplace =>
      cases h
      rw [advance_draft]
      exact Draft.place_proper hp (hs t rfl) hplace
    · cases h

theorem steps_proper {use : Uses} (hu : use.Keeps Draft.Proper) {line : Nat} {p q : Progress}
    {ss : List (Option Statement)} (hs : ∀ s, some s ∈ ss → s.Proper) (hp : p.draft.Proper)
    (h : steps use line ss p = some q) : q.draft.Proper := by
  induction ss generalizing line p with
  | nil =>
    cases h
    exact hp
  | cons s ss ih =>
    obtain ⟨p', hstep, hrest⟩ := Option.bind_eq_some_iff.1 h
    have hp' := step_proper hu (fun t ht => hs t (ht ▸ .head _)) hp hstep
    exact ih (fun t ht => hs t (.tail _ ht)) hp' hrest

theorem ofCatalog_proper (catalog : Catalog) (depth : Nat) (within : List String) :
    (Uses.ofCatalog catalog depth within).Keeps Draft.Proper := by
  induction depth generalizing within with
  | zero =>
    intro name line p q _ h
    cases h
  | succ depth ih =>
    intro name line p q hp h
    rw [ofCatalog_succ] at h
    split at h
    · cases h
    · split at h
      · obtain ⟨ss, hss, hsteps⟩ := Option.bind_eq_some_iff.1 h
        exact steps_proper (ih _) (statementsOf?_proper hss) hp hsteps
      · obtain ⟨what, -, rfl⟩ := Option.map_eq_some_iff.1 h
        rw [add, advance_draft]
        exact Draft.attach_proper hp (.inclusion what)

end Progress

namespace Reader

variable {catalog : Catalog}

theorem parse?_proper {source : String} {r r' : Reader} {nodes : List Node}
    (hr : r.draft.Proper) (h : r.parse? catalog source = some (r', nodes)) : r'.draft.Proper := by
  rw [parse?_eq] at h
  obtain ⟨p, hp, heq⟩ := Option.map_eq_some_iff.1 h
  obtain ⟨ss, hss, hsteps⟩ := Option.bind_eq_some_iff.1 hp
  cases heq
  exact Progress.steps_proper (Progress.ofCatalog_proper ..) (statementsOf?_proper hss) hr hsteps

theorem parseAll?_proper {pieces : List String} {r r' : Reader} {nodes : List Node}
    (hr : r.draft.Proper) (h : parseAll? catalog pieces r = some (r', nodes)) :
    r'.draft.Proper := by
  induction pieces generalizing r nodes with
  | nil =>
    cases h
    exact hr
  | cons piece pieces ih =>
    obtain ⟨⟨r₁, nodes₁⟩, hfirst, hothers⟩ := Option.bind_eq_some_iff.1 h
    obtain ⟨⟨r₂, nodes₂⟩, hrest, heq⟩ := Option.map_eq_some_iff.1 hothers
    cases heq
    exact ih (parse?_proper hr hfirst) hrest

/-- The whole tree of a program has its statements in their places. -/
theorem finish_placed {r : Reader} {tree : Node} (hr : r.draft.Proper) (h : r.finish = .ok tree) :
    ∃ statements, tree = .program statements ∧ ∀ n ∈ statements, n.Placed .top := by
  unfold finish Draft.finish at h
  cases ho : r.draft.opened with
  | nil =>
    rw [ho] at h
    cases h
    exact ⟨_, rfl, fun n hn => hr.done n (Array.mem_toList_iff.1 hn)⟩
  | cons b outer =>
    rw [ho] at h
    cases h

/-- The tree of source text has its statements in their places. -/
theorem program?_placed {pieces : List String} {tree : Node}
    (h : program? catalog pieces = some tree) :
    ∃ statements, tree = .program statements ∧ ∀ n ∈ statements, n.Placed .top := by
  obtain ⟨⟨r, handed⟩, hread, hfinish⟩ := Option.bind_eq_some_iff.1 h
  refine finish_placed (parseAll?_proper Draft.empty_proper hread) ?_
  cases hr : r.finish with
  | ok n =>
    simp only [hr] at hfinish
    cases hfinish
    rfl
  | error e =>
    simp only [hr] at hfinish
    cases hfinish

theorem program?_fits {pieces : List String} {tree : Node}
    (h : program? catalog pieces = some tree) :
    ∃ statements, tree = .program statements ∧ ∀ n ∈ statements, n.Fits .top := by
  obtain ⟨statements, htree, hplaced⟩ := program?_placed h
  exact ⟨statements, htree, fun n hn => (hplaced n hn).fits⟩

/-- The tree of source text binds words only. -/
theorem program?_worded {pieces : List String} {tree : Node}
    (h : program? catalog pieces = some tree) :
    tree.Worded := by
  obtain ⟨statements, rfl, hplaced⟩ := program?_placed h
  exact Node.worded_iff.2 ⟨List.forall_mem_nil _, fun n hn => (hplaced n hn).worded⟩

end Reader
end LineBasic
