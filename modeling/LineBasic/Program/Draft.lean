import LineBasic.Grammar.Statement

/-!
# Programs under construction

Statements arrive line by line. A draft holds the finished top-level nodes and the constructs that
are still open, the innermost first; each open construct collects the statements of its body.

* `OpenBlock` : a construct that waits for its closing line.
* `Draft` : finished nodes and open constructs.
* `Draft.place` : one statement placed, with the top-level node that it finishes, if any.
* `Draft.abandon`, `Draft.finish` : dropping the open constructs, and ending the program.
-/

namespace LineBasic

/-- The first line of an open construct. -/
inductive BlockHead where
  /-- A branch of a chain, after the `earlier` ones. -/
  | branch (fallback : Bool) (guard : Node) (earlier : List Node)
  | whileLoop (guard : Node)
  | doLoop
  | forLoop (counter : String) (start limit step : Node)
  | closure (kind : ClosureKind) (name : String) (params : List String)

namespace BlockHead

/-- The construct that a head starts. -/
def control : BlockHead → Control
  | branch fallback _ _ => .branch fallback
  | whileLoop _ => .whileLoop
  | doLoop => .doLoop
  | forLoop counter _ _ _ => .forLoop counter
  | closure kind name params => kind.control name params

/-- The kind of loop, for a loop. -/
def loop? : BlockHead → Option LoopKind
  | whileLoop _ => some .whileLoop
  | doLoop => some .doLoop
  | forLoop _ _ _ _ => some .forLoop
  | _ => none

/-- The kind of closure, for a closure. -/
def closure? : BlockHead → Option ClosureKind
  | closure kind _ _ => some kind
  | _ => none

/-- The closing statement that a message asks for. -/
def closing : BlockHead → String
  | branch _ _ _ => "END IF"
  | whileLoop _ => "WEND"
  | doLoop => "LOOP"
  | forLoop _ _ _ _ => "NEXT"
  | closure kind _ _ => "END " ++ kind.word

/-- Whether a closing statement is one of this construct. -/
def closedBy : BlockHead → Closer → Bool
  | branch _ _ _, .endIf => true
  | whileLoop _, .endWhile => true
  | whileLoop _, .wend => true
  | forLoop _ _ _ _, .endFor => true
  | closure .subroutine _ _, .endSub => true
  | closure .function _ _, .endFunction => true
  | _, _ => false

end BlockHead

/-- An open construct: its head, the line it opened on, and the statements so far. -/
structure OpenBlock where
  head : BlockHead
  line : Nat
  statements : Array Node

namespace OpenBlock

/-- The branches of a chain up to this one. -/
def branches (b : OpenBlock) : List Node :=
  match b.head with
  | .branch fallback guard earlier =>
    earlier ++ [.construct (.branch fallback) [guard] b.statements.toList]
  | _ => []

/-- The node of the construct; `again` is the guard of a `DO` loop. -/
def node (b : OpenBlock) (again : Node) : Node :=
  match b.head with
  | .branch _ _ _ => .plain .chain b.branches
  | .whileLoop guard => .construct .whileLoop [guard] b.statements.toList
  | .doLoop => .construct .doLoop [again] b.statements.toList
  | .forLoop counter start limit step =>
    .construct (.forLoop counter) [start, limit, step] b.statements.toList
  | .closure kind name params => .construct (kind.control name params) [] b.statements.toList

/-- The node of a construct without a guard at its end. -/
def closedNode (b : OpenBlock) : Node := b.node (.literal .nothing)

end OpenBlock

/-- Finished top-level nodes, and open constructs from the innermost to the outermost. -/
structure Draft where
  done : Array Node
  opened : List OpenBlock

namespace Draft

/-- Nothing written yet. -/
def empty : Draft := ⟨#[], []⟩

/-- A construct waits for its closing statement. -/
def isOpen (d : Draft) : Bool := !d.opened.isEmpty

/-- Adds a node to the innermost open construct, or to the finished nodes. Only in the second
case it is handed out. -/
def attach (d : Draft) (n : Node) : Draft × Option Node :=
  match d.opened with
  | [] => (⟨d.done.push n, []⟩, some n)
  | b :: bs => (⟨d.done, { b with statements := b.statements.push n } :: bs⟩, none)

/-- Opens a construct. -/
def enter (d : Draft) (head : BlockHead) (line : Nat) : Draft :=
  ⟨d.done, ⟨head, line, #[]⟩ :: d.opened⟩

/-- Closes a construct: its node goes to what was open before it. -/
def leave (d : Draft) (outer : List OpenBlock) (n : Node) : Draft × Option Node :=
  attach ⟨d.done, outer⟩ n

/-- The nearest enclosing closure. -/
def closure? (d : Draft) : Option ClosureKind := d.opened.findSome? fun b => b.head.closure?

/-- The nearest enclosing loop of the closure that is being defined. -/
def loopOf : List OpenBlock → Option LoopKind
  | [] => none
  | b :: bs =>
    match b.head.loop?, b.head.closure? with
    | some kind, _ => some kind
    | none, some _ => none
    | none, none => loopOf bs

/-- A further branch of the innermost chain. -/
def nextBranch (d : Draft) (word : String) (fallback : Bool) (guard : Node) (line : Nat) :
    Except SyntaxFault Draft :=
  match d.opened with
  | b :: bs =>
    match b.head with
    | .branch false _ _ =>
      .ok ⟨d.done, ⟨.branch fallback guard b.branches, line, #[]⟩ :: bs⟩
    | .branch true _ _ => .error (.branchAfterElse word)
    | _ => .error (.branchWithoutIf word)
  | [] => .error (.branchWithoutIf word)

/-- Closes the innermost construct if it is one of the closing statement. -/
def close (d : Draft) (closer : Closer) : Except SyntaxFault (Draft × Option Node) :=
  match d.opened with
  | b :: bs =>
    if b.head.closedBy closer then .ok (d.leave bs b.closedNode)
    else .error (.closerWithout closer.words closer.opener)
  | [] => .error (.closerWithout closer.words closer.opener)

/-- Closes the innermost construct if it is a `DO` loop. -/
def closeDo (d : Draft) (again : Node) : Except SyntaxFault (Draft × Option Node) :=
  match d.opened with
  | b :: bs =>
    match b.head with
    | .doLoop => .ok (d.leave bs (b.node again))
    | _ => .error (.closerWithout "LOOP" "DO")
  | [] => .error (.closerWithout "LOOP" "DO")

/-- Closes the innermost construct if it is a `FOR` loop, over the named counter if one is named. -/
def closeFor (d : Draft) (named : Option String) : Except SyntaxFault (Draft × Option Node) :=
  match d.opened with
  | b :: bs =>
    match b.head with
    | .forLoop counter _ _ _ =>
      match named with
      | none => .ok (d.leave bs b.closedNode)
      | some name =>
        if name = counter then .ok (d.leave bs b.closedNode)
        else .error (.counterMismatch name counter)
    | _ => .error (.closerWithout "NEXT" "FOR")
  | [] => .error (.closerWithout "NEXT" "FOR")

/-- A jump, which has to name the kind of the nearest enclosing loop. -/
def placeJump (d : Draft) (j : Jump) (kind : LoopKind) :
    Except SyntaxFault (Draft × Option Node) :=
  if loopOf d.opened = some kind then .ok (d.attach j.node)
  else .error (.jumpOutside j.word kind.word)

/-- A return, which needs a closure, and with a value a function. -/
def placeReturn (d : Draft) (value : Option Node) : Except SyntaxFault (Draft × Option Node) :=
  match d.closure?, value with
  | none, _ => .error .returnOutside
  | some .subroutine, some _ => .error .returnValueInSub
  | some _, _ => .ok (d.attach (.plain .returned value.toList))

/-- Places the statement of a line, and gives the top-level node that it finishes, if any. What a
`USE` stands for is not known here, so it places nothing. -/
def place (d : Draft) (line : Nat) : Statement → Except SyntaxFault (Draft × Option Node)
  | .simple n => .ok (d.attach n)
  | .openIf guard => .ok (d.enter (.branch false guard []) line, none)
  | .elseIf guard => (d.nextBranch "ELSEIF" false guard line).map fun d' => (d', none)
  | .otherwise =>
    (d.nextBranch "ELSE" true (.literal (.bool true)) line).map fun d' => (d', none)
  | .openWhile guard => .ok (d.enter (.whileLoop guard) line, none)
  | .openDo => .ok (d.enter .doLoop line, none)
  | .openFor counter start limit step =>
    .ok (d.enter (.forLoop counter start limit step) line, none)
  | .openClosure kind name params => .ok (d.enter (.closure kind name params) line, none)
  | .close closer => d.close closer
  | .loop guard => d.closeDo guard
  | .next named => d.closeFor named
  | .jump j kind => d.placeJump j kind
  | .giveBack value => d.placeReturn value
  | .use _ => .ok (d, none)

/-- Drops the constructs that are open. -/
def abandon (d : Draft) : Draft := ⟨d.done, []⟩

/-- The whole program, if no construct is open; otherwise the innermost one is at fault, on the line
that it opened on. -/
def finish (d : Draft) : Except (Nat × SyntaxFault) Node :=
  match d.opened with
  | [] => .ok (.program d.done.toList)
  | b :: _ => .error (b.line, .unclosed b.head.control.tag b.head.closing)

end Draft
end LineBasic
