import Mathlib.Data.List.ReduceOption
import LineBasic.Proofs.Surroundings

/-!
# The grammar of blocks

Which statements may follow each other is said by a grammar: constructs are nested, each is closed
by a statement of its kind, and jumps and returns stand where something takes them. Statements can
be placed one after another, with no construct left open, exactly if the grammar derives them, and
then the tree is that of the derivation.

* `Context`, `Phrase`, `Derives` : the grammar, with the nodes that a derivation makes.
* `Draft.Reached` : the statements behind a draft, as a derivation that is broken off inside the
  open constructs. Placing a statement goes on with it (`Draft.Reached.place`).
* `Derives.placed` : what is derived can be placed, in any draft with the same context.
* `Draft.read?_iff` : the statements of a program and their tree.
* `Reader.program?_iff_derives` : the same for source text.
-/

namespace LineBasic

/-! ### The grammar -/

/-- What is around a statement: the nearest loop in the same closure, and the nearest closure. -/
structure Context where
  loop : Option LoopKind
  closure : Option ClosureKind

namespace Context

/-- Outside of all constructs. -/
def top : Context := ⟨none, none⟩

/-- In the body of a loop. -/
def inLoop (c : Context) (kind : LoopKind) : Context := ⟨some kind, c.closure⟩

/-- In the body of a closure, which hides the loops outside of it. -/
def inClosure (kind : ClosureKind) : Context := ⟨none, some kind⟩

end Context

/-- What is derived: any number of statements, one statement, or an `IF` with its `ELSEIF` arms
before anything that closes them. -/
inductive Phrase where
  | statements | statement | arms

/-- The statement that closes a closure. -/
def ClosureKind.closer : ClosureKind → Closer
  | subroutine => .endSub
  | function => .endFunction

/-- The statements that close a `WHILE` loop. -/
def Statement.endsWhile : Statement → Bool
  | close .wend => true
  | close .endWhile => true
  | _ => false

/-- The statements that close a `FOR` loop: if one names a counter, it is that of the loop. -/
def Statement.endsFor (counter : String) : Statement → Bool
  | next none => true
  | next (some name) => name = counter
  | close .endFor => true
  | _ => false

/-- The statements that stand for those of a module. -/
def Statement.isUse : Statement → Bool
  | use _ => true
  | _ => false

/-- The block grammar: lines of a program, and the nodes that they make. -/
inductive Derives : Context → Phrase → List Statement → List Node → Prop
  | empty {c : Context} : Derives c .statements [] []
  | snoc {c : Context} {ss s : List Statement} {ns ms : List Node}
      (before : Derives c .statements ss ns) (last : Derives c .statement s ms) :
      Derives c .statements (ss ++ s) (ns ++ ms)
  | simple {c : Context} (n : Node) : Derives c .statement [.simple n] [n]
  | jump {c : Context} {kind : LoopKind} (j : Jump) (inside : c.loop = some kind) :
      Derives c .statement [.jump j kind] [j.node]
  | leave {c : Context} {kind : ClosureKind} (inside : c.closure = some kind) :
      Derives c .statement [.giveBack none] [.plain .returned []]
  | giveBack {c : Context} (value : Node) (inside : c.closure = some .function) :
      Derives c .statement [.giveBack (some value)] [.plain .returned [value]]
  | whileLoop {c : Context} {guard : Node} {ss : List Statement} {ns : List Node} {last : Statement}
      (body : Derives (c.inLoop .whileLoop) .statements ss ns) (closed : last.endsWhile = true) :
      Derives c .statement (.openWhile guard :: ss ++ [last]) [.construct .whileLoop [guard] ns]
  | doLoop {c : Context} {guard : Node} {ss : List Statement} {ns : List Node}
      (body : Derives (c.inLoop .doLoop) .statements ss ns) :
      Derives c .statement (.openDo :: ss ++ [.loop guard]) [.construct .doLoop [guard] ns]
  | forLoop {c : Context} {counter : String} {start limit step : Node} {ss : List Statement}
      {ns : List Node} {last : Statement} (body : Derives (c.inLoop .forLoop) .statements ss ns)
      (closed : last.endsFor counter = true) :
      Derives c .statement (.openFor counter start limit step :: ss ++ [last])
        [.construct (.forLoop counter) [start, limit, step] ns]
  | closure {c : Context} {kind : ClosureKind} {name : String} {params : List String}
      {ss : List Statement} {ns : List Node} (body : Derives (.inClosure kind) .statements ss ns) :
      Derives c .statement (.openClosure kind name params :: ss ++ [.close kind.closer])
        [.construct (kind.control name params) [] ns]
  | firstArm {c : Context} {guard : Node} {ss : List Statement} {ns : List Node}
      (body : Derives c .statements ss ns) :
      Derives c .arms (.openIf guard :: ss) [.construct (.branch false) [guard] ns]
  | nextArm {c : Context} {guard : Node} {before ss : List Statement} {arms ns : List Node}
      (earlier : Derives c .arms before arms) (body : Derives c .statements ss ns) :
      Derives c .arms (before ++ .elseIf guard :: ss)
        (arms ++ [.construct (.branch false) [guard] ns])
  | chain {c : Context} {before : List Statement} {arms : List Node}
      (earlier : Derives c .arms before arms) :
      Derives c .statement (before ++ [.close .endIf]) [.plain .chain arms]
  | chainElse {c : Context} {before ss : List Statement} {arms ns : List Node}
      (earlier : Derives c .arms before arms) (body : Derives c .statements ss ns) :
      Derives c .statement (before ++ .otherwise :: ss ++ [.close .endIf])
        [.plain .chain (arms ++ [.construct (.branch true) [.literal (.bool true)] ns])]

/-! ### Open constructs -/

/-- The context inside of a construct. -/
def Context.inside (c : Context) : BlockHead → Context
  | .branch _ _ _ => c
  | .whileLoop _ => c.inLoop .whileLoop
  | .doLoop => c.inLoop .doLoop
  | .forLoop _ _ _ _ => c.inLoop .forLoop
  | .closure kind _ _ => .inClosure kind

/-- The context inside of open constructs, the innermost first. -/
def contextOf (opened : List OpenBlock) : Context :=
  ⟨Draft.loopOf opened, opened.findSome? fun b => b.head.closure?⟩

theorem contextOf_cons (b : OpenBlock) (outer : List OpenBlock) :
    contextOf (b :: outer) = (contextOf outer).inside b.head := by
  obtain ⟨head, line, statements⟩ := b
  cases head <;> rfl

/-- The statements from the start of an open construct to the start of its body. -/
inductive Opens (c : Context) : BlockHead → List Statement → Prop
  | whileLoop (guard : Node) : Opens c (.whileLoop guard) [.openWhile guard]
  | doLoop : Opens c .doLoop [.openDo]
  | forLoop (counter : String) (start limit step : Node) :
      Opens c (.forLoop counter start limit step) [.openFor counter start limit step]
  | closure (kind : ClosureKind) (name : String) (params : List String) :
      Opens c (.closure kind name params) [.openClosure kind name params]
  | firstArm (guard : Node) : Opens c (.branch false guard []) [.openIf guard]
  | nextArm {before : List Statement} {arms : List Node} (guard : Node)
      (earlier : Derives c .arms before arms) :
      Opens c (.branch false guard arms) (before ++ [.elseIf guard])
  | lastArm {before : List Statement} {arms : List Node} (earlier : Derives c .arms before arms) :
      Opens c (.branch true (.literal (.bool true)) arms) (before ++ [.otherwise])

/-- The statements that close an open construct; `again` is the guard of a `DO` loop. -/
inductive Closes : BlockHead → Node → Statement → Prop
  | whileLoop {guard again : Node} {last : Statement} (closed : last.endsWhile = true) :
      Closes (.whileLoop guard) again last
  | doLoop (again : Node) : Closes .doLoop again (.loop again)
  | forLoop {counter : String} {start limit step again : Node} {last : Statement}
      (closed : last.endsFor counter = true) :
      Closes (.forLoop counter start limit step) again last
  | closure {kind : ClosureKind} {name : String} {params : List String} {again : Node} :
      Closes (.closure kind name params) again (.close kind.closer)
  | branch {fallback : Bool} {guard again : Node} {earlier : List Node} :
      Closes (.branch fallback guard earlier) again (.close .endIf)

/-- A guarded branch that is open makes one more arm. -/
theorem Opens.arms {c : Context} {guard : Node} {earlier : List Node} {hs ss : List Statement}
    {ns : List Node} (h : Opens c (.branch false guard earlier) hs)
    (body : Derives c .statements ss ns) :
    Derives c .arms (hs ++ ss) (earlier ++ [.construct (.branch false) [guard] ns]) := by
  cases h with
  | firstArm => exact .firstArm body
  | nextArm _ before =>
    rw [List.append_assoc]
    exact .nextArm before body

/-- An open construct with the statement that closes it is a statement. -/
theorem Opens.statement {c : Context} {b : OpenBlock} {hs ss : List Statement} {again : Node}
    {last : Statement} (h : Opens c b.head hs)
    (body : Derives (c.inside b.head) .statements ss b.statements.toList)
    (closed : Closes b.head again last) :
    Derives c .statement (hs ++ ss ++ [last]) [b.node again] := by
  obtain ⟨head, line, statements⟩ := b
  cases closed with
  | whileLoop closed =>
    cases h
    exact .whileLoop body closed
  | doLoop =>
    cases h
    exact .doLoop body
  | forLoop closed =>
    cases h
    exact .forLoop body closed
  | closure =>
    cases h
    exact .closure body
  | @branch fallback guard _ earlier =>
    cases fallback with
    | false => exact .chain (h.arms body)
    | true =>
      cases h with
      | lastArm before =>
        have hchain := Derives.chainElse before body
        simp only [List.append_assoc, List.cons_append, List.nil_append] at hchain ⊢
        exact hchain

/-! ### Drafts and derivations -/

namespace Draft

/-- The draft that statements lead to. Each open construct has statements that open it, in the
context of the constructs around it, and derived statements in its body. -/
inductive Reached : List Statement → Draft → Prop
  | top {ss : List Statement} {done : Array Node} (all : Derives .top .statements ss done.toList) :
      Reached ss ⟨done, []⟩
  | inside {before hs ss : List Statement} {done : Array Node} {b : OpenBlock}
      {outer : List OpenBlock} (around : Reached before ⟨done, outer⟩)
      (opened : Opens (contextOf outer) b.head hs)
      (body : Derives (contextOf (b :: outer)) .statements ss b.statements.toList) :
      Reached (before ++ (hs ++ ss)) ⟨done, b :: outer⟩

namespace Reached

variable {ss : List Statement} {d : Draft}

theorem empty : Reached [] .empty := .top .empty

theorem attach {s : List Statement} {n : Node} (h : Reached ss d)
    (last : Derives (contextOf d.opened) .statement s [n]) : Reached (ss ++ s) (d.attach n).1 := by
  cases h with
  | @top _ done all =>
    have hall : Derives .top .statements (ss ++ s) (done.push n).toList := by
      rw [Array.toList_push]
      exact .snoc all last
    exact .top hall
  | @inside before hs ss' done b outer around opened body =>
    have hbody : Derives (contextOf (b :: outer)) .statements (ss' ++ s)
        (b.statements.push n).toList := by
      rw [Array.toList_push]
      exact .snoc body last
    rw [List.append_assoc, List.append_assoc]
    exact .inside around opened hbody

theorem enter {hs : List Statement} {head : BlockHead} (h : Reached ss d)
    (opened : Opens (contextOf d.opened) head hs) (line : Nat) :
    Reached (ss ++ hs) (d.enter head line) := by
  have hinside := Reached.inside (b := ⟨head, line, #[]⟩) h opened .empty
  rwa [List.append_nil] at hinside

/-- Closing the innermost construct makes a statement of it. -/
theorem leave {b : OpenBlock} {outer : List OpenBlock} {again : Node} {last : Statement}
    (h : Reached ss d) (ho : d.opened = b :: outer) (closed : Closes b.head again last) :
    Reached (ss ++ [last]) (d.leave outer (b.node again)).1 := by
  cases h with
  | top => cases ho
  | inside around opened body =>
    cases ho
    rw [contextOf_cons] at body
    rw [List.append_assoc]
    exact attach (d := ⟨_, _⟩) around (opened.statement body closed)

/-- A branch after the innermost one. -/
theorem nextBranch {word : String} {fallback : Bool} {guard : Node} {line : Nat} {last : Statement}
    {r : Draft × Option Node} (h : Reached ss d)
    (hplace : (d.nextBranch word fallback guard line).map (fun d' => (d', none)) = .ok r)
    (opens : ∀ {c before arms}, Derives c .arms before arms →
      Opens c (.branch fallback guard arms) (before ++ [last])) : Reached (ss ++ [last]) r.1 := by
  unfold Draft.nextBranch at hplace
  split at hplace
  · next b outer ho =>
    split at hplace
    · next guard' earlier hhead =>
      cases hplace
      cases h with
      | top => cases ho
      | inside around opened body =>
        cases ho
        rw [contextOf_cons, hhead] at body
        rw [hhead] at opened
        have harms := opens (opened.arms body)
        rw [← OpenBlock.branches_eq hhead] at harms
        have hnext := around.enter harms line
        rwa [← List.append_assoc] at hnext
    · cases hplace
    · cases hplace
  · cases hplace

/-- A closing statement with a fixed wording. -/
theorem close {closer : Closer} {r : Draft × Option Node} (h : Reached ss d)
    (hplace : d.close closer = .ok r) : Reached (ss ++ [.close closer]) r.1 := by
  unfold Draft.close at hplace
  split at hplace
  · next b outer ho =>
    split at hplace
    · next hclosed =>
      cases hplace
      refine h.leave ho ?_
      obtain ⟨head, line, statements⟩ := b
      cases head with
      | branch fallback guard earlier =>
        cases closer with
        | endIf => exact .branch
        | _ => cases hclosed
      | whileLoop guard =>
        cases closer with
        | endWhile => exact .whileLoop rfl
        | wend => exact .whileLoop rfl
        | _ => cases hclosed
      | doLoop => cases closer <;> cases hclosed
      | forLoop counter start limit step =>
        cases closer with
        | endFor => exact .forLoop rfl
        | _ => cases hclosed
      | closure kind name params =>
        cases kind with
        | subroutine =>
          cases closer with
          | endSub => exact .closure
          | _ => cases hclosed
        | function =>
          cases closer with
          | endFunction => exact .closure
          | _ => cases hclosed
    · cases hplace
  · cases hplace

theorem closeDo {again : Node} {r : Draft × Option Node} (h : Reached ss d)
    (hplace : d.closeDo again = .ok r) : Reached (ss ++ [.loop again]) r.1 := by
  unfold Draft.closeDo at hplace
  split at hplace
  · next b outer ho =>
    split at hplace
    · next hhead =>
      cases hplace
      exact h.leave ho (hhead ▸ .doLoop again)
    · cases hplace
  · cases hplace

theorem closeFor {named : Option String} {r : Draft × Option Node} (h : Reached ss d)
    (hplace : d.closeFor named = .ok r) : Reached (ss ++ [.next named]) r.1 := by
  unfold Draft.closeFor at hplace
  split at hplace
  · next b outer ho =>
    split at hplace
    · next counter _ _ _ hhead =>
      split at hplace
      · cases hplace
        exact h.leave ho (hhead ▸ .forLoop rfl)
      · split at hplace
        · next hname =>
          cases hplace
          exact h.leave ho (hhead ▸ .forLoop (decide_eq_true hname))
        · cases hplace
    · cases hplace
  · cases hplace

theorem placeJump {j : Jump} {kind : LoopKind} {r : Draft × Option Node} (h : Reached ss d)
    (hplace : d.placeJump j kind = .ok r) : Reached (ss ++ [.jump j kind]) r.1 := by
  unfold Draft.placeJump at hplace
  split at hplace
  · next hloop =>
    cases hplace
    exact h.attach (.jump j hloop)
  · cases hplace

theorem placeReturn {value : Option Node} {r : Draft × Option Node} (h : Reached ss d)
    (hplace : d.placeReturn value = .ok r) : Reached (ss ++ [.giveBack value]) r.1 := by
  unfold Draft.placeReturn at hplace
  cases hclosure : d.closure? with
  | none => simp [hclosure] at hplace
  | some kind =>
    cases value with
    | none =>
      simp only [hclosure] at hplace
      cases hplace
      exact h.attach (.leave hclosure)
    | some e =>
      cases kind with
      | subroutine => simp [hclosure] at hplace
      | function =>
        simp only [hclosure] at hplace
        cases hplace
        exact h.attach (.giveBack e hclosure)

/-- Placing a statement goes on with the derivation. -/
theorem place {line : Nat} {s : Statement} {r : Draft × Option Node} (h : Reached ss d)
    (hs : s.isUse = false) (hplace : d.place line s = .ok r) : Reached (ss ++ [s]) r.1 := by
  cases s with
  | simple n =>
    cases hplace
    exact h.attach (.simple n)
  | openIf guard =>
    cases hplace
    exact h.enter (.firstArm guard) line
  | elseIf guard => exact h.nextBranch hplace (.nextArm guard)
  | otherwise => exact h.nextBranch hplace .lastArm
  | openWhile guard =>
    cases hplace
    exact h.enter (.whileLoop guard) line
  | openDo =>
    cases hplace
    exact h.enter .doLoop line
  | openFor counter start limit step =>
    cases hplace
    exact h.enter (.forLoop counter start limit step) line
  | openClosure kind name params =>
    cases hplace
    exact h.enter (.closure kind name params) line
  | close closer => exact h.close hplace
  | loop guard => exact h.closeDo hplace
  | next named => exact h.closeFor hplace
  | jump j kind => exact h.placeJump hplace
  | giveBack value => exact h.placeReturn hplace
  | use name => cases hs

theorem placeAll {ps : List Placement} {d' : Draft} (h : Reached ss d)
    (hps : ∀ p ∈ ps, p.2.isUse = false) (hplace : placeAll? ps d = some d') :
    Reached (ss ++ ps.map Prod.snd) d' := by
  induction ps generalizing ss d with
  | nil =>
    cases hplace
    rwa [List.map_nil, List.append_nil]
  | cons p ps ih =>
    simp only [placeAll?] at hplace
    split at hplace
    · next r hfirst =>
      have hnext := h.place (hps p (.head _)) hfirst
      have hrest := ih hnext (fun q hq => hps q (.tail _ hq)) hplace
      rwa [List.append_assoc] at hrest
    · cases hplace

end Reached

/-! ### Derived statements can be placed -/

/-- Adds nodes to the innermost open construct, or to the finished nodes. -/
def attachAll (d : Draft) (ns : List Node) : Draft :=
  match d.opened with
  | [] => ⟨d.done ++ ns.toArray, []⟩
  | b :: bs => ⟨d.done, { b with statements := b.statements ++ ns.toArray } :: bs⟩

theorem attachAll_nil (d : Draft) : d.attachAll [] = d := by
  obtain ⟨done, _ | ⟨b, bs⟩⟩ := d <;> simp [attachAll]

theorem attachAll_append (d : Draft) (ns ms : List Node) :
    d.attachAll (ns ++ ms) = (d.attachAll ns).attachAll ms := by
  obtain ⟨done, _ | ⟨b, bs⟩⟩ := d <;> simp [attachAll, ← List.append_toArray]

theorem attach_eq (d : Draft) (n : Node) : (d.attach n).1 = d.attachAll [n] := by
  obtain ⟨done, _ | ⟨b, bs⟩⟩ := d <;> simp [attachAll, attach]

theorem contextOf_attachAll (d : Draft) (ns : List Node) :
    contextOf (d.attachAll ns).opened = contextOf d.opened := by
  obtain ⟨done, _ | ⟨b, bs⟩⟩ := d
  · rfl
  · simp only [attachAll, contextOf_cons]

theorem attachAll_enter (d : Draft) (head : BlockHead) (line : Nat) (ns : List Node) :
    (d.enter head line).attachAll ns = ⟨d.done, ⟨head, line, ns.toArray⟩ :: d.opened⟩ := by
  simp [attachAll, enter]

theorem place_of_closes {done : Array Node} {b : OpenBlock} {outer : List OpenBlock} {again : Node}
    {last : Statement} (h : Closes b.head again last) (line : Nat) :
    place ⟨done, b :: outer⟩ line last = .ok (attach ⟨done, outer⟩ (b.node again)) := by
  obtain ⟨head, line', statements⟩ := b
  cases h with
  | whileLoop closed =>
    cases last with
    | close closer =>
      cases closer with
      | endWhile => rfl
      | wend => rfl
      | _ => cases closed
    | _ => cases closed
  | doLoop => rfl
  | @forLoop counter _ _ _ _ _ closed =>
    cases last with
    | close closer =>
      cases closer with
      | endFor => rfl
      | _ => cases closed
    | next named =>
      cases named with
      | none => rfl
      | some name =>
        have hname : name = counter := of_decide_eq_true closed
        simp only [place, closeFor, hname, if_true]
        rfl
    | _ => cases closed
  | @closure kind => cases kind <;> rfl
  | branch => rfl

theorem placeAll?_single {p : Placement} {d : Draft} {r : Draft × Option Node}
    (h : d.place p.1 p.2 = .ok r) : placeAll? [p] d = some r.1 := by
  simp only [placeAll?, h]

/-- A statement that stands for a node by itself. -/
theorem placeAll?_node {p : Placement} {d : Draft} {n : Node}
    (h : d.place p.1 p.2 = .ok (d.attach n)) :
    placeAll? [p] d = some (d.attachAll [n]) := by
  rw [placeAll?_single h, attach_eq]

/-- Statements that open a construct, with those of its body. -/
theorem placeAll?_body {ps qs : List Placement} {d : Draft} {head : BlockHead} {line : Nat}
    {ns : List Node} (opened : placeAll? ps d = some (d.enter head line))
    (body : placeAll? qs (d.enter head line) = some ((d.enter head line).attachAll ns)) :
    placeAll? (ps ++ qs) d = some ⟨d.done, ⟨head, line, ns.toArray⟩ :: d.opened⟩ := by
  rw [placeAll?_append, opened, Option.bind_some, body, attachAll_enter]

/-- Statements that leave one construct open, with the one that closes it. -/
theorem placeAll?_closed {ps : List Placement} {q : Placement} {d : Draft} {b : OpenBlock}
    {again : Node} (opened : placeAll? ps d = some ⟨d.done, b :: d.opened⟩)
    (closed : Closes b.head again q.2) :
    placeAll? (ps ++ [q]) d = some (d.attachAll [b.node again]) := by
  rw [placeAll?_append, opened, Option.bind_some, placeAll?_single (place_of_closes closed q.1),
    attach_eq]

/-- Statements that leave a guarded branch open, with the one that starts the next branch. -/
theorem placeAll?_nextBranch {ps : List Placement} {q : Placement} {d : Draft} {b : OpenBlock}
    {fallback : Bool} {guard guard' : Node} {earlier : List Node}
    (opened : placeAll? ps d = some ⟨d.done, b :: d.opened⟩)
    (hb : b.head = .branch false guard' earlier)
    (hq : ∃ word, ∀ d : Draft,
      d.place q.1 q.2 = (d.nextBranch word fallback guard q.1).map fun d' => (d', none)) :
    placeAll? (ps ++ [q]) d = some (d.enter (.branch fallback guard b.branches) q.1) := by
  obtain ⟨word, hq⟩ := hq
  have hnext : place ⟨d.done, b :: d.opened⟩ q.1 q.2 =
      .ok (d.enter (.branch fallback guard b.branches) q.1, none) := by
    rw [hq]
    simp only [nextBranch, hb]
    rfl
  rw [placeAll?_append, opened, Option.bind_some, placeAll?_single hnext]

end Draft

open Draft

namespace Derives

/-- What derived statements do to a draft: they add their nodes, and arms leave a branch open. -/
def Places (ns : List Node) (d : Draft) (r : Option Draft) : Phrase → Prop
  | .arms => ∃ b guard earlier, b.head = .branch false guard earlier ∧ b.branches = ns ∧
      r = some ⟨d.done, b :: d.opened⟩
  | _ => r = some (d.attachAll ns)

variable {c : Context} {phrase : Phrase} {ss : List Statement} {ns : List Node}

/-- A construct with one body: a statement that opens it, the statements of the body,
and one that closes it. -/
theorem places_construct {c' : Context} {head : BlockHead} {first last : Statement}
    {ps : List Placement} {d : Draft} (again : Node) (hps : ps.map Prod.snd = first :: ss ++ [last])
    (hfirst : ∀ line, d.place line first = .ok (d.enter head line, none))
    (hinside : (contextOf d.opened).inside head = c')
    (body : ∀ {qs : List Placement}, qs.map Prod.snd = ss →
      ∀ {d' : Draft}, contextOf d'.opened = c' → Places ns d' (placeAll? qs d') .statements)
    (closed : Closes head again last) :
    ∃ line, placeAll? ps d =
      some (d.attachAll [(⟨head, line, ns.toArray⟩ : OpenBlock).node again]) := by
  obtain ⟨ps', qs', rfl, hps', hqs'⟩ := List.map_eq_append_iff.1 hps
  obtain ⟨q, rfl, rfl⟩ := List.map_eq_singleton_iff.1 hqs'
  obtain ⟨p, qs, rfl, rfl, hqs⟩ := List.map_eq_cons_iff.1 hps'
  have hopened : placeAll? [p] d = some (d.enter head p.1) := placeAll?_single (hfirst p.1)
  have hbody := placeAll?_body hopened (body hqs (by rw [enter, contextOf_cons, hinside]))
  exact ⟨p.1, placeAll?_closed hbody closed⟩

/-- Derived statements can be placed, in every draft with their context. -/
theorem placed (h : Derives c phrase ss ns) {ps : List Placement} (hps : ps.map Prod.snd = ss)
    {d : Draft} (hd : contextOf d.opened = c) : Places ns d (placeAll? ps d) phrase := by
  induction h generalizing ps d with
  | empty =>
    obtain rfl := List.map_eq_nil_iff.1 hps
    exact congrArg some (attachAll_nil d).symm
  | @snoc c ss s ns ms _ _ ihBefore ihLast =>
    obtain ⟨ps₁, ps₂, rfl, h₁, h₂⟩ := List.map_eq_append_iff.1 hps
    have hbefore : placeAll? ps₁ d = some (d.attachAll ns) := ihBefore h₁ hd
    have hlast : placeAll? ps₂ (d.attachAll ns) = some ((d.attachAll ns).attachAll ms) :=
      ihLast h₂ ((contextOf_attachAll d ns).trans hd)
    simp only [Places]
    rw [placeAll?_append, hbefore, Option.bind_some, hlast, attachAll_append]
  | simple n =>
    obtain ⟨p, rfl, hp⟩ := List.map_eq_singleton_iff.1 hps
    exact placeAll?_node (by rw [hp]; rfl)
  | jump j inside =>
    obtain ⟨p, rfl, hp⟩ := List.map_eq_singleton_iff.1 hps
    subst hd
    refine placeAll?_node ?_
    rw [hp]
    simp only [place, placeJump]
    exact if_pos inside
  | @leave c kind inside =>
    obtain ⟨p, rfl, hp⟩ := List.map_eq_singleton_iff.1 hps
    subst hd
    have hclosure : d.closure? = some kind := inside
    refine placeAll?_node ?_
    rw [hp]
    simp only [place, placeReturn, hclosure]
    rfl
  | giveBack value inside =>
    obtain ⟨p, rfl, hp⟩ := List.map_eq_singleton_iff.1 hps
    subst hd
    have hclosure : d.closure? = some .function := inside
    refine placeAll?_node ?_
    rw [hp]
    simp only [place, placeReturn, hclosure]
    rfl
  | @whileLoop c guard ss ns last _ closed ih =>
    subst hd
    obtain ⟨line, hall⟩ := places_construct (.literal .nothing) hps (fun _ => rfl) rfl ih
      (.whileLoop closed)
    exact hall
  | @doLoop c guard ss ns _ ih =>
    subst hd
    obtain ⟨line, hall⟩ := places_construct guard hps (fun _ => rfl) rfl ih (.doLoop guard)
    exact hall
  | @forLoop c counter start limit step ss ns last _ closed ih =>
    subst hd
    obtain ⟨line, hall⟩ := places_construct (.literal .nothing) hps (fun _ => rfl) rfl ih
      (.forLoop closed)
    exact hall
  | @closure c kind name params ss ns _ ih =>
    subst hd
    obtain ⟨line, hall⟩ := places_construct (.literal .nothing) hps (fun _ => rfl) rfl ih
      .closure
    exact hall
  | @firstArm c guard ss ns _ ih =>
    obtain ⟨p, qs, rfl, hp, hqs⟩ := List.map_eq_cons_iff.1 hps
    have hopened : placeAll? [p] d = some (d.enter (.branch false guard []) p.1) :=
      placeAll?_single (r := (_, none)) (by rw [hp]; rfl)
    have hbody := placeAll?_body hopened (ih hqs (by rw [enter, contextOf_cons, hd]; rfl))
    exact ⟨_, guard, [], rfl, rfl, hbody⟩
  | @nextArm c guard before ss arms ns _ _ ihEarlier ih =>
    obtain ⟨ps', qs', rfl, hps', hqs'⟩ := List.map_eq_append_iff.1 hps
    obtain ⟨q, qs, rfl, hq, hqs⟩ := List.map_eq_cons_iff.1 hqs'
    obtain ⟨b, guard', earlier, hb, rfl, hplace⟩ := ihEarlier hps' hd
    have hopened := placeAll?_nextBranch (q := q) hplace hb ⟨"ELSEIF", fun _ => by rw [hq]; rfl⟩
    have hbody := placeAll?_body hopened (ih hqs (by rw [enter, contextOf_cons, hd]; rfl))
    rw [List.append_assoc] at hbody
    exact ⟨_, guard, b.branches, rfl, rfl, hbody⟩
  | @chain c before arms _ ihEarlier =>
    obtain ⟨ps', qs', rfl, hps', hqs'⟩ := List.map_eq_append_iff.1 hps
    obtain ⟨q, rfl, hq⟩ := List.map_eq_singleton_iff.1 hqs'
    obtain ⟨b, guard, earlier, hb, rfl, hplace⟩ := ihEarlier hps' hd
    have hclosed : Closes b.head (.literal .nothing) q.2 := by
      rw [hb, hq]
      exact .branch
    have hnode : b.node (.literal .nothing) = .plain .chain b.branches := by
      simp only [OpenBlock.node, hb]
    rw [← hnode]
    exact placeAll?_closed hplace hclosed
  | @chainElse c before ss arms ns _ _ ihEarlier ih =>
    obtain ⟨ps', qs', rfl, hps', hqs'⟩ := List.map_eq_append_iff.1 hps
    obtain ⟨last, rfl, hlast⟩ := List.map_eq_singleton_iff.1 hqs'
    obtain ⟨ps₁, ps₂, rfl, h₁, h₂⟩ := List.map_eq_append_iff.1 hps'
    obtain ⟨q, qs, rfl, hq, hqs⟩ := List.map_eq_cons_iff.1 h₂
    obtain ⟨b, guard, earlier, hb, rfl, hplace⟩ := ihEarlier h₁ hd
    have hopened := placeAll?_nextBranch (q := q) hplace hb ⟨"ELSE", fun _ => by rw [hq]; rfl⟩
    have hbody := placeAll?_body hopened (ih hqs (by rw [enter, contextOf_cons, hd]; rfl))
    rw [List.append_assoc] at hbody
    have hclosed :
        Closes (.branch true (.literal (.bool true)) b.branches) (.literal .nothing) last.2 := by
      rw [hlast]
      exact .branch
    exact placeAll?_closed hbody hclosed

end Derives

/-! ### Programs -/

/-- Statements without uses make a tree exactly if they are derived, and the tree is that of the
derivation. -/
theorem Draft.read?_iff {ps : List Placement} (hps : ∀ p ∈ ps, p.2.isUse = false) (tree : Node) :
    read? ps = some tree ↔
      ∃ ns, Derives .top .statements (ps.map Prod.snd) ns ∧ tree = .program ns := by
  constructor
  · intro h
    obtain ⟨d, hplace, hfinish⟩ := Option.bind_eq_some_iff.1 h
    have hreached := Reached.empty.placeAll hps hplace
    rw [List.nil_append] at hreached
    generalize ps.map Prod.snd = ss at hreached ⊢
    cases hreached with
    | @top _ done all => exact ⟨done.toList, all, (Option.some.inj hfinish).symm⟩
    | inside => cases hfinish
  · rintro ⟨ns, hns, rfl⟩
    have hplace : placeAll? ps .empty = some (empty.attachAll ns) := hns.placed rfl rfl
    have hdone : empty.attachAll ns = ⟨ns.toArray, []⟩ := by simp [attachAll, empty]
    rw [read?, hplace, hdone]
    rfl

/-- Lines without uses stand for themselves, whatever uses stand for. -/
theorem Expansion.lines_of_plain (use : Expansion) {ss : List (Option Statement)}
    (plain : ∀ s ∈ ss.reduceOption, s.isUse = false) (number : Nat) :
    ∃ ps, use.lines number ss = some ps ∧ ps.map Prod.snd = ss.reduceOption := by
  induction ss generalizing number with
  | nil => exact ⟨[], rfl, rfl⟩
  | cons s ss ih =>
    cases s with
    | none =>
      obtain ⟨ps, hps, hsnd⟩ := ih plain (number + 1)
      refine ⟨ps, ?_, hsnd⟩
      simp [lines, line, hps]
    | some s =>
      rw [List.reduceOption_cons_of_some] at plain ⊢
      obtain ⟨ps, hps, hsnd⟩ := ih (fun t ht => plain t (.tail _ ht)) (number + 1)
      have hline : use.line number (some s) = some [(number, s)] := by
        cases s with
        | use name => cases plain _ (.head _)
        | _ => rfl
      refine ⟨(number, s) :: ps, ?_, ?_⟩
      · simp [lines, hline, hps]
      · rw [List.map_cons, hsnd]

namespace Reader

/-- Lines that can be read one by one, none of them a use, make a program exactly if the block
grammar derives what they say. Then the tree is that of the derivation. -/
theorem program?_iff_derives (catalog : Catalog) (source : String) {said : List (Option Statement)}
    (readable : statementsOf? source.toList = some said)
    (plain : ∀ s ∈ said.reduceOption, s.isUse = false) (tree : Node) :
    program? catalog [source] = some tree ↔
      ∃ ns, Derives .top .statements said.reduceOption ns ∧ tree = .program ns := by
  obtain ⟨ps, hps, hsnd⟩ := Expansion.lines_of_plain
    (.ofCatalog catalog (catalog.length + 1) []) plain 1
  have hplacements : placements? catalog 1 [source] = some ps := by
    simp [placements?, readable, hps]
  have huses : ∀ p ∈ ps, p.2.isUse = false := by
    intro p hp
    exact plain p.2 (hsnd ▸ List.mem_map_of_mem hp)
  rw [program?_eq, hplacements, Option.bind_some, ← hsnd]
  exact Draft.read?_iff huses tree

/-- A chain with a jump and a return, in a loop that names its counter at
both ends, in a function. -/
theorem program?_iff_derives_nested :
    let source :=
      "FUNCTION F\nFOR I = 1 TO 3\nIF I THEN\nEXIT FOR\nELSE\nRETURN I\nEND IF\nNEXT I" ++
      "\nEND FUNCTION"
    ∃ said ns, statementsOf? source.toList = some said ∧
      (∀ s ∈ said.reduceOption, s.isUse = false) ∧
      Derives .top .statements said.reduceOption ns ∧
        program? [] [source] = some (.program ns) := by
  intro source
  have hsaid : (statementsOf? source.toList).any
      (fun said => decide (∀ s ∈ said.reduceOption, s.isUse = false)) = true := by decide +kernel
  have hread : (program? [] [source]).isSome = true := by decide +kernel
  obtain ⟨said, hsaid, hplain⟩ := (Option.any_eq_true ..).1 hsaid
  have hplain := of_decide_eq_true hplain
  obtain ⟨tree, htree⟩ := Option.isSome_iff_exists.1 hread
  obtain ⟨ns, hderives, rfl⟩ := (program?_iff_derives [] source hsaid hplain tree).1 htree
  exact ⟨said, ns, hsaid, hplain, hderives, htree⟩

end Reader
end LineBasic
