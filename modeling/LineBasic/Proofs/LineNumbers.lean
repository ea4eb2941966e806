import LineBasic.Proofs.SourceLines

/-!
# Line numbers

An open construct knows the line that it opened on, for the message if it is never closed. Nothing
else depends on line numbers: what can be placed can be placed on any line.

* `Draft.unnumbered`, `Progress.unnumbered` : the same without line numbers.
* `Draft.place_unnumbered` : one statement placed.
* `Progress.steps_blind` : statements placed one after another, for uses that are `Uses.Blind`.
* `Progress.ofCatalog_blind` : the uses of a catalog are.
-/

namespace LineBasic

/-! ### Drafts without line numbers -/

namespace OpenBlock

/-- An open construct without the number of its line. -/
def unnumbered (b : OpenBlock) : OpenBlock := { b with line := 0 }

@[simp] theorem unnumbered_head (b : OpenBlock) : b.unnumbered.head = b.head := rfl

end OpenBlock

namespace Draft

/-- A draft without the numbers of its lines. -/
def unnumbered (d : Draft) : Draft := ⟨d.done, d.opened.map OpenBlock.unnumbered⟩

/-- The result of placing a statement, without the numbers of lines. -/
def unnumberedResult (r : Draft × Option Node) : Draft × Option Node := (r.1.unnumbered, r.2)

theorem attach_unnumbered (d : Draft) (n : Node) :
    d.unnumbered.attach n = unnumberedResult (d.attach n) := by
  obtain ⟨done, _ | ⟨b, bs⟩⟩ := d <;> rfl

theorem leave_unnumbered (d : Draft) (outer : List OpenBlock) (n : Node) :
    d.unnumbered.leave (outer.map OpenBlock.unnumbered) n = unnumberedResult (d.leave outer n) :=
  attach_unnumbered ⟨d.done, outer⟩ n

theorem loopOf_unnumbered (opened : List OpenBlock) :
    loopOf (opened.map OpenBlock.unnumbered) = loopOf opened := by
  induction opened with
  | nil => rfl
  | cons b bs ih => simp only [List.map_cons, loopOf, OpenBlock.unnumbered_head, ih]

theorem closure?_unnumbered (d : Draft) : d.unnumbered.closure? = d.closure? := by
  simp only [closure?, unnumbered, List.findSome?_map]
  rfl

theorem nextBranch_unnumbered (d : Draft) (word : String) (fallback : Bool) (guard : Node)
    (line : Nat) :
    d.unnumbered.nextBranch word fallback guard 0 =
      (d.nextBranch word fallback guard line).map unnumbered := by
  obtain ⟨done, _ | ⟨b, bs⟩⟩ := d
  · rfl
  · obtain ⟨head, number, statements⟩ := b
    rcases head with ⟨_ | _, guard', earlier⟩ | _ | _ | _ | _ <;> rfl

theorem close_unnumbered (d : Draft) (closer : Closer) :
    d.unnumbered.close closer = (d.close closer).map unnumberedResult := by
  obtain ⟨done, _ | ⟨b, bs⟩⟩ := d
  · rfl
  · show (if b.head.closedBy closer then _ else _) =
        Except.map _ (if b.head.closedBy closer then _ else _)
    split
    · exact congrArg Except.ok (leave_unnumbered ⟨done, b :: bs⟩ bs b.closedNode)
    · rfl

theorem closeDo_unnumbered (d : Draft) (again : Node) :
    d.unnumbered.closeDo again = (d.closeDo again).map unnumberedResult := by
  obtain ⟨done, _ | ⟨b, bs⟩⟩ := d
  · rfl
  · obtain ⟨head, number, statements⟩ := b
    cases head
    case doLoop =>
      exact congrArg Except.ok (leave_unnumbered ⟨done, ⟨.doLoop, number, statements⟩ :: bs⟩ bs _)
    all_goals rfl

theorem closeFor_unnumbered (d : Draft) (named : Option String) :
    d.unnumbered.closeFor named = (d.closeFor named).map unnumberedResult := by
  obtain ⟨done, _ | ⟨b, bs⟩⟩ := d
  · rfl
  · obtain ⟨head, number, statements⟩ := b
    cases head
    case forLoop counter start limit step =>
      have hleave := leave_unnumbered
        ⟨done, ⟨.forLoop counter start limit step, number, statements⟩ :: bs⟩ bs
        (.construct (.forLoop counter) [start, limit, step] statements.toList)
      cases named with
      | none => exact congrArg Except.ok hleave
      | some name =>
        show (if name = counter then _ else _) = Except.map _ (if name = counter then _ else _)
        split
        · exact congrArg Except.ok hleave
        · rfl
    all_goals rfl

/-- Line numbers are noted, and never looked at. -/
theorem place_unnumbered (d : Draft) (line : Nat) (s : Statement) :
    d.unnumbered.place 0 s = (d.place line s).map unnumberedResult := by
  cases s with
  | simple n => exact congrArg Except.ok (attach_unnumbered d n)
  | elseIf guard =>
    show Except.map _ _ = Except.map _ (Except.map _ _)
    rw [nextBranch_unnumbered d _ _ _ line]
    cases d.nextBranch "ELSEIF" false guard line <;> rfl
  | otherwise =>
    show Except.map _ _ = Except.map _ (Except.map _ _)
    rw [nextBranch_unnumbered d _ _ _ line]
    cases d.nextBranch "ELSE" true (.literal (.bool true)) line <;> rfl
  | close closer => exact close_unnumbered d closer
  | loop guard => exact closeDo_unnumbered d guard
  | next named => exact closeFor_unnumbered d named
  | jump j kind =>
    show (if loopOf _ = _ then _ else _) = Except.map _ (if loopOf _ = _ then _ else _)
    rw [show d.unnumbered.opened = d.opened.map OpenBlock.unnumbered from rfl, loopOf_unnumbered]
    split
    · exact congrArg Except.ok (attach_unnumbered d j.node)
    · rfl
  | giveBack value =>
    show d.unnumbered.placeReturn value = (d.placeReturn value).map _
    unfold placeReturn
    rw [closure?_unnumbered]
    split
    · rfl
    · rfl
    · exact congrArg Except.ok (attach_unnumbered d _)
  | _ => rfl

end Draft

/-! ### Reading without line numbers -/

namespace Progress

/-- Progress without the numbers of lines. -/
def unnumbered (p : Progress) : Progress := ⟨p.draft.unnumbered, p.handed⟩

/-- The uses that do not look at line numbers. -/
def Uses.Blind (use : Uses) : Prop :=
  ∀ name line line' p p', p.unnumbered = p'.unnumbered →
    (use name line p).map unnumbered = (use name line' p').map unnumbered

theorem advance_unnumbered (p : Progress) (r : Draft × Option Node) :
    (p.advance r).unnumbered = p.unnumbered.advance (Draft.unnumberedResult r) := by
  obtain ⟨d, _ | n⟩ := r <;> rfl

/-- A statement placed by itself. -/
def placed (line : Nat) (s : Statement) (p : Progress) : Option Progress :=
  match p.draft.place line s with
  | .ok r => some (p.advance r)
  | .error _ => none

theorem placed_unnumbered (line : Nat) (s : Statement) (p : Progress) :
    (p.placed line s).map unnumbered = p.unnumbered.placed 0 s := by
  unfold placed
  rw [show p.unnumbered.draft = p.draft.unnumbered from rfl, Draft.place_unnumbered _ line]
  cases p.draft.place line s with
  | error f => rfl
  | ok r => exact congrArg some (advance_unnumbered p r)

/-- What follows does not look at line numbers. -/
theorem bind_blind {x y : Option Progress} {f g : Progress → Option Progress}
    (h : x.map unnumbered = y.map unnumbered)
    (hfg : ∀ q q', q.unnumbered = q'.unnumbered →
      (f q).map unnumbered = (g q').map unnumbered) :
    (x.bind f).map unnumbered = (y.bind g).map unnumbered := by
  cases x with
  | none =>
    rw [Option.map_eq_none_iff.1 h.symm]
    rfl
  | some q =>
    obtain ⟨q', rfl, heq⟩ := Option.map_eq_some_iff.1 h.symm
    exact hfg q q' heq.symm

theorem step_blind {use : Uses} (hu : use.Blind) (line line' : Nat) {p p' : Progress}
    (h : p.unnumbered = p'.unnumbered) (s : Option Statement) :
    (p.step use line s).map unnumbered = (p'.step use line' s).map unnumbered := by
  unfold step
  split
  · exact congrArg some h
  · exact hu _ line line' p p' h
  · next s _ =>
    show (p.placed line s).map _ = (p'.placed line' s).map _
    rw [placed_unnumbered, placed_unnumbered, h]

theorem steps_blind {use : Uses} (hu : use.Blind) (line line' : Nat) {p p' : Progress}
    (h : p.unnumbered = p'.unnumbered) (ss : List (Option Statement)) :
    (steps use line ss p).map unnumbered = (steps use line' ss p').map unnumbered := by
  induction ss generalizing line line' p p' with
  | nil => exact congrArg some h
  | cons s ss ih =>
    exact bind_blind (step_blind hu line line' h s) fun q q' hq => ih (line + 1) (line' + 1) hq

theorem ofCatalog_blind (catalog : Catalog) (depth : Nat) (within : List String) :
    (Uses.ofCatalog catalog depth within).Blind := by
  induction depth generalizing within with
  | zero => exact fun _ _ _ _ _ _ => rfl
  | succ depth ih =>
    intro name line line' p p' h
    rw [ofCatalog_succ, ofCatalog_succ]
    split
    · rfl
    · split
      · cases statementsOf? _ with
        | none => rfl
        | some ss => exact steps_blind (ih _) 1 1 h ss
      · cases catalog.unit? name with
        | none => rfl
        | some what =>
          refine congrArg some ?_
          show (p.advance _).unnumbered = (p'.advance _).unnumbered
          rw [advance_unnumbered, advance_unnumbered, ← Draft.attach_unnumbered,
            ← Draft.attach_unnumbered]
          exact congrArg (fun q : Progress => q.advance (q.draft.attach _)) h

end Progress
end LineBasic
