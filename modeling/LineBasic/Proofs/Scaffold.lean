import LineBasic.Proofs.Entries

/-!
# Trees that are built in place

A draft keeps each open construct apart from the others, and makes a node of it when it is closed.
The tree of a program can also be built in place: nodes have identities, children are added to them
one by one, each node knows the construct around it, and a stack holds the blocks that are open. A
construct is in the tree from its first line on. Closing it takes its block off the stack and leaves
the tree as it is, and dropping it takes the last child of the root away, whatever that is.

* `Cell`, `Cells` : nodes by identity; `Cells.grow` adds a child, `Cells.read`
  is the tree below a node.
* `Scaffold` : a tree with its stack of open blocks; `Scaffold.place` places a statement.
* `Scaffold.parse`, `Scaffold.abandon`, `Scaffold.finish` : a piece, a construct that is
  dropped, and the program.
* `Scaffold.perform`, `Scaffold.after`, `Scaffold.seen` : calls, and what can be
  seen of them from outside.
* `Cells.Continues`, `Scaffold.Upright` : how the stack goes along the last children of the tree.
-/

namespace LineBasic

/-- The identity of a node that is built in place. -/
abbrev CellId := Nat

/-- What a node is: one that came whole from a line, or a construct. -/
inductive Content where
  | whole (n : Node)
  | control (c : Control)

/-- The construct, if it is one. -/
def Content.control? : Content → Option Control
  | whole _ => none
  | control c => some c

/-- A node with its children, the place of its body among them, and the node
that it is a child of. -/
structure Cell where
  content : Content
  children : List CellId
  body : Option Nat
  parent : Option CellId

/-- All nodes, by identity. -/
abbrev Cells := List Cell

namespace Cells

/-- The root of the tree. -/
def root : CellId := 0

/-- A new node, as the last child of another one. -/
def grow (cells : Cells) (parent : CellId) (content : Content) : Cells :=
  List.modify cells parent (fun c => { c with children := c.children ++ [cells.length] }) ++
    [⟨content, [], none, some parent⟩]

/-- New nodes that came whole, as the last children of another one. -/
def growAll (cells : Cells) (parent : CellId) : List Node → Cells
  | [] => cells
  | n :: ns => growAll (cells.grow parent (.whole n)) parent ns

/-- A new block, as the last child of a construct and as its body. -/
def growBody (cells : Cells) (owner : CellId) : Cells :=
  List.modify (cells.grow owner (.control .block)) owner fun c =>
    { c with body := some (c.children.length - 1) }

/-- A new construct, as the last child of a node, with its guards and then its body as children. -/
def raise (cells : Cells) (holder : CellId) (c : Control) (guards : List Node) : Cells :=
  ((cells.grow holder (.control c)).growAll cells.length guards).growBody cells.length

/-- A new node that came whole, in the place of the first child. -/
def replaceFirst (cells : Cells) (owner : CellId) (n : Node) : Cells :=
  List.modify cells owner (fun c => { c with children := c.children.set 0 cells.length }) ++
    [⟨.whole n, [], none, some owner⟩]

/-- The node that another one is a child of. -/
def parent? (cells : Cells) (id : CellId) : Option CellId := cells[id]?.bind Cell.parent

/-- The construct that a node is. -/
def control? (cells : Cells) (id : CellId) : Option Control :=
  cells[id]?.bind fun c => c.content.control?

/-- The construct around a node. -/
def parentControl? (cells : Cells) (id : CellId) : Option Control :=
  (cells.parent? id).bind cells.control?

/-- The body of a construct. -/
def body? (cells : Cells) (id : CellId) : Option CellId :=
  cells[id]?.bind fun c => c.body.bind fun k => c.children[k]?

/-- The last child of a node. -/
def lastChild? (cells : Cells) (id : CellId) : Option CellId :=
  cells[id]?.bind fun c => c.children.getLast?

/-- The tree below a node. Children are newer than the node, so the first argument can
be the number of nodes. -/
def readUpTo (cells : Cells) : Nat → CellId → Node
  | 0, _ => .literal .nothing
  | k + 1, id =>
    match cells[id]? with
    | none => .literal .nothing
    | some ⟨.whole n, _, _, _⟩ => n
    | some ⟨.control c, children, body, _⟩ =>
      .mk (.control c) (children.map (readUpTo cells k)) (body.map UInt64.ofNat)

/-- The tree below a node. -/
def read (cells : Cells) (id : CellId) : Node := cells.readUpTo cells.length id

end Cells

/-! ### What constructs are -/

namespace Control

/-- The kind of closure, for a closure. -/
def closure? : Control → Option ClosureKind
  | subroutine _ _ => some .subroutine
  | function _ _ => some .function
  | _ => none

/-- The closing statement that a message asks for. -/
def closing : Control → String
  | branch _ => "END IF"
  | whileLoop => "WEND"
  | doLoop => "LOOP"
  | forLoop _ => "NEXT"
  | subroutine _ _ => "END SUB"
  | function _ _ => "END FUNCTION"
  | _ => "END"

/-- Whether a closing statement is one of this construct. -/
def closedBy : Control → Closer → Bool
  | branch _, .endIf => true
  | whileLoop, .endWhile => true
  | whileLoop, .wend => true
  | forLoop _, .endFor => true
  | subroutine _ _, .endSub => true
  | function _ _, .endFunction => true
  | _, _ => false

end Control

/-! ### Scaffolds -/

/-- The nodes of a tree, the blocks that are open with the lines they opened on, the innermost
first, the top-level nodes that a piece has finished, all that were finished before and with it, and
the number of the next line. -/
structure Scaffold where
  cells : Cells
  blocks : List (CellId × Nat)
  completed : List CellId
  finished : List CellId
  line : Nat

namespace Scaffold

open Cells (root)

/-- Nothing read yet. -/
def start : Scaffold := ⟨[⟨.control .program, [], none, none⟩], [(root, 0)], [], [], 1⟩

/-- The block that statements are added to. -/
def target (s : Scaffold) : CellId := (s.blocks.headD (root, 0)).1

/-- A construct waits for its closing statement. -/
def isOpen (s : Scaffold) : Bool := 1 < s.blocks.length

/-- The construct that the innermost block is the body of. -/
def construct? (s : Scaffold) : Option CellId := s.cells.parent? s.target

def control? (s : Scaffold) : Option Control := s.cells.parentControl? s.target

/-- The nearest enclosing closure. -/
def closure? (s : Scaffold) : Option ClosureKind :=
  s.blocks.findSome? fun b => (s.cells.parentControl? b.1).bind Control.closure?

/-- The nearest enclosing loop of the closure that is being defined. -/
def loopOf (cells : Cells) : List (CellId × Nat) → Option LoopKind
  | [] => none
  | b :: bs =>
    match (cells.parentControl? b.1).bind Control.loop?,
      (cells.parentControl? b.1).bind Control.closure? with
    | some kind, _ => some kind
    | none, some _ => none
    | none, none => loopOf cells bs

/-- Adds a node that came whole. -/
def attach (s : Scaffold) (n : Node) : Scaffold :=
  { s with cells := s.cells.grow s.target (.whole n) }

/-- Adds a construct to a node, with its body as the innermost block. -/
def raise (s : Scaffold) (holder : CellId) (c : Control) (guards : List Node)
    (line : Nat) : Scaffold :=
  { s with
    cells := s.cells.raise holder c guards
    blocks := ((s.cells.raise holder c guards).length - 1, line) :: s.blocks }

/-- Adds a chain with its first branch. -/
def raiseChain (s : Scaffold) (guard : Node) (line : Nat) : Scaffold :=
  raise { s with cells := s.cells.grow s.target (.control .chain) } s.cells.length
    (.branch false) [guard] line

/-- Takes the innermost block off the stack, but never the root. -/
def pop (s : Scaffold) : Scaffold := if s.isOpen then { s with blocks := s.blocks.tail } else s

/-- A further branch of the innermost chain. -/
def nextBranch (s : Scaffold) (word : String) (fallback : Bool) (guard : Node) (line : Nat) :
    Except SyntaxFault Scaffold :=
  match s.control? with
  | some (.branch false) =>
    match s.construct?.bind s.cells.parent? with
    | some chain => .ok (s.pop.raise chain (.branch fallback) [guard] line)
    | none => .error (.branchWithoutIf word)
  | some (.branch true) => .error (.branchAfterElse word)
  | _ => .error (.branchWithoutIf word)

/-- Closes the innermost construct, if it is one of these. -/
def close (s : Scaffold) (these : Control → Bool) (fault : SyntaxFault) :
    Except SyntaxFault (CellId × Scaffold) :=
  if s.control?.any these then
    match s.construct? with
    | some owner => .ok (owner, s.pop)
    | none => .error fault
  else .error fault

/-- Closes the innermost construct, if it is a `FOR` loop, over the named
counter if one is named. -/
def closeFor (s : Scaffold) (named : Option String) : Except SyntaxFault Scaffold :=
  match s.control?, named with
  | some (.forLoop counter), some name =>
    if name = counter then .ok s.pop else .error (.counterMismatch name counter)
  | some (.forLoop _), none => .ok s.pop
  | _, _ => .error (.closerWithout "NEXT" "FOR")

/-- A jump, which has to name the kind of the nearest enclosing loop. -/
def placeJump (s : Scaffold) (j : Jump) (kind : LoopKind) : Except SyntaxFault Scaffold :=
  if loopOf s.cells s.blocks =
    some kind then .ok (s.attach j.node) else .error (.jumpOutside j.word kind.word)

/-- A return, which needs a closure, and with a value a function. -/
def placeReturn (s : Scaffold) (value : Option Node) : Except SyntaxFault Scaffold :=
  match s.closure?, value with
  | none, _ => .error .returnOutside
  | some .subroutine, some _ => .error .returnValueInSub
  | some _, _ => .ok (s.attach (.plain .returned value.toList))

/-- Places the statement of a line, and says whether it is complete with it. -/
def place (s : Scaffold) (line : Nat) : Statement → Except SyntaxFault (Scaffold × Bool)
  | .simple n => .ok (s.attach n, true)
  | .openIf guard => .ok (s.raiseChain guard line, false)
  | .elseIf guard => (s.nextBranch "ELSEIF" false guard line).map fun s' => (s', false)
  | .otherwise => (s.nextBranch "ELSE" true (.literal (.bool true)) line).map fun s' => (s', false)
  | .openWhile guard => .ok (s.raise s.target .whileLoop [guard] line, false)
  -- the guard comes with the last line
  | .openDo => .ok (s.raise s.target .doLoop [.literal .nothing] line, false)
  | .openFor counter start limit step =>
    .ok (s.raise s.target (.forLoop counter) [start, limit, step] line, false)
  | .openClosure kind name params =>
    .ok (s.raise s.target (kind.control name params) [] line, false)
  | .close closer =>
    (s.close (fun c => c.closedBy closer) (.closerWithout closer.words closer.opener)).map fun r =>
      (r.2, true)
  | .loop guard =>
    (s.close (fun c => c = .doLoop) (.closerWithout "LOOP" "DO")).map fun r =>
      ({ r.2 with cells := r.2.cells.replaceFirst r.1 guard }, true)
  | .next named => (s.closeFor named).map fun s' => (s', true)
  | .jump j kind => (s.placeJump j kind).map fun s' => (s', true)
  | .giveBack value => (s.placeReturn value).map fun s' => (s', true)
  | .use _ => .ok (s, false)

/-- Notes the last top-level node, if a statement has completed it. -/
def note (s : Scaffold) (complete : Bool) : Scaffold :=
  if complete && !s.isOpen then
    match s.cells.lastChild? root with
    | some id => { s with completed := s.completed ++ [id], finished := s.finished ++ [id] }
    | none => s
  else s

/-- Drops the construct that is open: all blocks but the root, and the last top-level node. -/
def abandon (s : Scaffold) : Scaffold :=
  if s.isOpen then
    { s with
      cells := List.modify s.cells root fun c => { c with children := c.children.dropLast }
      blocks := s.blocks.drop (s.blocks.length - 1)
      completed := [] }
  else { s with completed := [] }

/-- The whole program, unless the innermost block is the body of a construct. -/
def finish (s : Scaffold) : Except Error Node :=
  if s.isOpen then
    match s.control? with
    | some c => .error (.grammatical (s.blocks.headD (root, 0)).2 (.unclosed c.tag c.closing))
    | none => .ok (s.cells.read root)
  else .ok (s.cells.read root)

/-! ### Pieces and calls -/

/-- Places an entry, if it is a statement that can be placed. -/
def enter (s : Scaffold) : Entry → Except Error Scaffold
  | .statement p => ((s.place p.1 p.2).map fun r => r.1.note r.2).mapError (.grammatical p.1)
  | .fault e => .error e

/-- Places entries up to the first that fails. -/
def read : List Entry → Scaffold → Scaffold × Option Error
  | [], s => (s, none)
  | e :: es, s =>
    match s.enter e with
    | .ok s' => read es s'
    | .error f => (s, some f)

/-- Reads one more piece, and gives the top-level nodes that it finishes. -/
def parse (catalog : Catalog) (source : String) (s : Scaffold) :
    Scaffold × Except Error (List Node) :=
  let done := read (Entry.ofPiece catalog s.line source)
    { s with completed := [], line := s.line + max 1 (Text.lineCount source) }
  match done.2 with
  | none => ({ done.1 with completed := [] }, .ok (done.1.completed.map done.1.cells.read))
  | some e => (done.1, .error e)

/-- The scaffold after a call, and its answer. -/
def perform : Reader.Call → Scaffold → Scaffold × Except Error (List Node)
  | .parse catalog source, s => s.parse catalog source
  | .abandon, s => (s.abandon, .ok [])

/-- The scaffold after calls. -/
def after : List Reader.Call → Scaffold → Scaffold
  | [], s => s
  | c :: cs, s => after cs (s.perform c).1

/-- What can be seen from outside: the answer of each call, and after it whether a construct is open
and what the program is. Asking for these changes nothing. -/
def seen : List Reader.Call → Scaffold → List (Except Error (List Node) × Bool × Except Error Node)
  | [], _ => []
  | c :: cs, s =>
    ((s.perform c).2, (s.perform c).1.isOpen, (s.perform c).1.finish) :: seen cs (s.perform c).1

/-- A scaffold that has only these nodes at the top level, all of them finished, and this
number for the next line. -/
def holding (nodes : List Node) (line : Nat) : Scaffold :=
  ⟨⟨.control .program, List.range' 1 nodes.length, none, none⟩ ::
      nodes.map (fun n => ⟨.whole n, [], none, some root⟩),
    [(root, 0)], [], List.range' 1 nodes.length, line⟩

end Scaffold

/-- What can be seen of a reader from outside. -/
def Reader.seen :
    List Reader.Call → Reader → List (Except Error (List Node) × Bool × Except Error Node)
  | [], _ => []
  | c :: cs, r => ((c.run r).2, (c.run r).1.isOpen, (c.run r).1.finish) :: seen cs (c.run r).1

/-! ### Stacks along the last children -/

namespace Cells

/-- The node is the body of a construct that is the last child of `below`, or of a chain that is its
last child. All of them know what they are children of. -/
def Continues (cells : Cells) (below block : CellId) : Prop :=
  ∃ owner c, cells.control? owner = some c ∧ cells.body? owner = some block ∧
    cells.control? block = some .block ∧ cells.parent? block = some owner ∧
    (cells.lastChild? below = some owner ∧ cells.parent? owner = some below ∨
      ∃ chain, cells.lastChild? below = some chain ∧ cells.parent? chain = some below ∧
        cells.control? chain = some .chain ∧ cells.lastChild? chain = some owner ∧
        cells.parent? owner = some chain)

end Cells

namespace Scaffold

/-- The stack has the root at the bottom, and each block above it continues the one below. -/
structure Upright (s : Scaffold) : Prop where
  bottom : s.blocks.getLast? = some (Cells.root, 0)
  continues : s.blocks.IsChain fun upper lower => s.cells.Continues lower.1 upper.1

end Scaffold

end LineBasic
