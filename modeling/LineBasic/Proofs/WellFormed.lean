import LineBasic.Program.Draft

/-!
# Well-formed trees

Two views of the same trees.

* `Node.shaped` looks at one node: the number and the kinds of its children, the index of its
  body, the count of operands of an operator. `Node.WellFormed` asks it of every node of a
  tree; it can be computed.
* `Node.Expression` and `Node.Fits` are rules that build the trees of source text. They
  also say where a jump or a return may stand: a `Place` knows whether a loop and
  whether a closure is around it.

`Node.Fits.wellFormed` leads from the second view to the first. `Node.Worded` is about
names only: those that a tree can bind are words. `Node.Placed` is a statement in its
place with words for names.
-/

namespace LineBasic

/-! ### Words -/

namespace Text

/-- A text of name characters only. -/
def isWord (s : String) : Bool := s.toList.all isNamePart

/-- Upper case changes letters only, and into capital ones. -/
theorem toUpper_cases (c : Char) : c.toUpper = c ∨ isLetter c = true ∧ 'A' ≤ c.toUpper ∧
    c.toUpper ≤ 'Z' := by
  unfold Char.toUpper
  split
  · next hc =>
    have hle : 97 ≤ c.val.toNat ∧ c.val.toNat ≤ 122 := hc
    have hval : (c.val + ('A'.val - 'a'.val)).toNat = c.val.toNat - 32 := by
      show (c.val + 4294967264).toNat = _
      rw [UInt32.toNat_add]
      show (c.val.toNat + 4294967264) % 4294967296 = _
      omega
    simp only [isLetter, Bool.or_eq_true, Bool.and_eq_true, decide_eq_true_eq]
    refine .inr ⟨.inl hc, ?_, ?_⟩
    · show 'A'.val.toNat ≤ (c.val + ('A'.val - 'a'.val)).toNat
      rw [hval]; show 65 ≤ _; omega
    · show (c.val + ('A'.val - 'a'.val)).toNat ≤ 'Z'.val.toNat
      rw [hval]; show _ ≤ 90; omega
  · exact .inl rfl

theorem isLetter_of_capital {c : Char} (h : 'A' ≤ c ∧ c ≤ 'Z') : isLetter c = true := by
  simp [isLetter, h.1, h.2]

theorem isNamePart_toUpper {c : Char} (h : isNamePart c = true) : isNamePart c.toUpper = true := by
  rcases toUpper_cases c with hc | ⟨-, hc⟩
  · rwa [hc]
  · simp [isNamePart, isNameStart, isLetter_of_capital hc]

theorem isWord_upperCase {s : String} (h : isWord s = true) : isWord (upperCase s) = true := by
  simp only [isWord, upperCase, String.toList_ofList, List.all_map, List.all_eq_true] at h ⊢
  intro c hc
  exact isNamePart_toUpper (h c hc)

end Text

/-! ### Operators and their operands -/

namespace Operator

/-- The operator with a name. -/
def ofName? (s : String) : Option Operator := all.find? fun op => op.name = s

theorem ofName?_name (op : Operator) : ofName? op.name = some op := by cases op <;> decide

theorem isWord_name (op : Operator) : Text.isWord op.name = false := by cases op <;> decide

theorem name_ne_of_isWord {s : String} (h : Text.isWord s = true) (op : Operator) :
    op.name ≠ s := by
  rintro rfl
  simp [isWord_name] at h

theorem ofName?_of_isWord {s : String} (h : Text.isWord s = true) : ofName? s = none := by
  simp only [ofName?, List.find?_eq_none, decide_eq_true_eq]
  exact fun op _ => name_ne_of_isWord h op

/-- How many of the first operands have to be names. -/
def nameCount : Operator → Nat
  | assign => 1
  | assignElement => 1
  | declare => 2
  | _ => 0

/-- The operands suit the operator: there are as many as it takes, and names
where it wants names. -/
def takes (op : Operator) (args : List Node) : Bool :=
  op.accepts args.length && (args.take op.nameCount).all fun n => n.name?.isSome

end Operator

/-! ### The shape of a node -/

namespace Node

mutual

/-- All nodes of a tree. -/
def nodes : Node → List Node
  | mk k cs b => mk k cs b :: nodesAll cs

/-- All nodes of trees. -/
def nodesAll : List Node → List Node
  | [] => []
  | n :: ns => nodes n ++ nodesAll ns

end

theorem mem_nodesAll {d : Node} {ns : List Node} : d ∈ nodesAll ns ↔ ∃ n ∈ ns, d ∈ n.nodes := by
  induction ns with
  | nil => simp [nodesAll]
  | cons n ns ih => simp [nodesAll, ih]

theorem mem_nodes {d n : Node} : d ∈ n.nodes ↔ d = n ∨ ∃ c ∈ n.children, d ∈ c.nodes := by
  cases n with
  | mk k cs b => simp [nodes, children, mem_nodesAll]

/-- What is true of all nodes of a tree is true of its root and of all nodes of its children. -/
theorem forall_nodes {P : Node → Prop} {n : Node} :
    (∀ d ∈ n.nodes, P d) ↔ P n ∧ ∀ c ∈ n.children, ∀ d ∈ c.nodes, P d := by
  constructor
  · intro h
    exact ⟨h n (mem_nodes.2 (.inl rfl)), fun c hc d hd => h d (mem_nodes.2 (.inr ⟨c, hc, hd⟩))⟩
  · rintro ⟨hn, hc⟩ d hd
    rcases mem_nodes.1 hd with rfl | ⟨c, hmem, hd⟩
    · exact hn
    · exact hc c hmem d hd

/-- A block of statements. -/
def isBlock (n : Node) : Bool := n.kind = .control .block

/-- A branch of a chain, with this mark. -/
def isBranch (fallback : Bool) (n : Node) : Bool := n.kind = .control (.branch fallback)

/-- `count` parts and a block after them, which is the body. -/
def hasBodyAfter (n : Node) (count : Nat) : Bool :=
  n.children.length = count + 1 && n.bodyIndex = some (UInt64.ofNat count) &&
    (n.children[count]?).any isBlock

/-- One branch or more; only the last one can be a fallback, and the first one is none. -/
def isChain (branches : List Node) : Bool :=
  branches.head?.any (isBranch false) && branches.dropLast.all (isBranch false) &&
    branches.all fun n => isBranch false n || isBranch true n

/-- The children and the body that a construct has to have. -/
def shapedAs (n : Node) : Control → Bool
  | .chain => isChain n.children
  | .branch _ => n.hasBodyAfter 1
  | .whileLoop => n.hasBodyAfter 1
  | .doLoop => n.hasBodyAfter 1
  | .forLoop _ => n.hasBodyAfter 3
  | .subroutine _ params => n.hasBodyAfter 0 && params.Nodup
  | .function _ params => n.hasBodyAfter 0 && params.Nodup
  | _ => true

/-- A node by itself is as it should be. -/
def shaped (n : Node) : Bool :=
  match n.kind with
  | .control c => n.shapedAs c
  | .call target => (Operator.ofName? target).all fun op => op.takes n.children
  | _ => true

/-- Every node of the tree is as it should be. -/
def WellFormed (n : Node) : Prop := ∀ d ∈ n.nodes, d.shaped = true

instance (n : Node) : Decidable n.WellFormed :=
  inferInstanceAs (Decidable (∀ d ∈ n.nodes, d.shaped = true))

theorem wellFormed_iff {n : Node} :
    n.WellFormed ↔ n.shaped = true ∧ ∀ c ∈ n.children, c.WellFormed := forall_nodes

theorem hasBodyAfter_construct (c : Control) (head ss : List Node) :
    (construct c head ss).hasBodyAfter head.length = true := by
  simp [hasBodyAfter, construct, children, bodyIndex, isBlock, block, plain, kind]

end Node

/-! ### Names that are bound -/

/-- The names that a node can bind: it is a name, or its construct binds names. -/
def NodeKind.names : NodeKind → List String
  | name s => [s]
  | control (.forLoop counter) => [counter]
  | control (.subroutine s params) => s :: params
  | control (.function s params) => s :: params
  | _ => []

/-- All names that the nodes of a tree can bind are words. -/
def Node.Worded (n : Node) : Prop := ∀ d ∈ n.nodes, ∀ x ∈ d.kind.names, Text.isWord x = true

theorem Node.worded_iff {n : Node} :
    n.Worded ↔ (∀ x ∈ n.kind.names, Text.isWord x = true) ∧ ∀ c ∈ n.children, c.Worded :=
      forall_nodes

/-! ### Expressions -/

/-- The expressions. An operator has operands that suit it; other names are words. -/
inductive Node.Expression : Node → Prop
  | literal (v : Literal) : Expression (.literal v)
  | name {s : String} (word : Text.isWord s = true) : Expression (.ofName s)
  | array {es : List Node} (elements : ∀ e ∈ es, Expression e) : Expression (.array es)
  | call {target : String} {args : List Node} (word : Text.isWord target = true)
      (arguments : ∀ e ∈ args, Expression e) : Expression (.call target args)
  | operation {op : Operator} {args : List Node} (takes : op.takes args = true)
      (operands : ∀ e ∈ args, Expression e) : Expression (.operation op args)

namespace Node

theorem Expression.wellFormed {n : Node} (h : n.Expression) : n.WellFormed := by
  induction h with
  | literal v => exact wellFormed_iff.2 ⟨rfl, by simp [Node.literal, leaf, children]⟩
  | name _ => exact wellFormed_iff.2 ⟨rfl, by simp [ofName, leaf, children]⟩
  | array _ ih => exact wellFormed_iff.2 ⟨rfl, ih⟩
  | call word _ ih =>
    refine wellFormed_iff.2 ⟨?_, ih⟩
    simp [shaped, Node.call, kind, Operator.ofName?_of_isWord word]
  | @operation op args takes _ ih =>
    refine wellFormed_iff.2 ⟨?_, ih⟩
    simpa [shaped, Node.operation, Node.call, kind, children, Operator.ofName?_name] using takes

theorem Expression.worded {n : Node} (h : n.Expression) : n.Worded := by
  induction h with
  | literal v => exact worded_iff.2 ⟨List.forall_mem_nil _, List.forall_mem_nil _⟩
  | name word => exact worded_iff.2 ⟨List.forall_mem_singleton.2 word, List.forall_mem_nil _⟩
  | array _ ih => exact worded_iff.2 ⟨List.forall_mem_nil _, ih⟩
  | call _ _ ih => exact worded_iff.2 ⟨List.forall_mem_nil _, ih⟩
  | operation _ _ ih => exact worded_iff.2 ⟨List.forall_mem_nil _, ih⟩

/-- An operator of two operands, none of which has to be a name. -/
theorem Expression.binary {op : Operator} {a b : Node} (accepts : op.accepts 2 = true)
    (count : op.nameCount = 0) (ha : a.Expression) (hb : b.Expression) :
    (Node.operation op [a, b]).Expression := by
  refine .operation ?_ ?_
  · simp [Operator.takes, accepts, count]
  · simp [ha, hb]

end Node

/-! ### Statements in their places -/

/-- What is around a statement: a loop in the same closure, and a closure. -/
structure Place where
  jumps : Bool
  returns : Bool
  deriving DecidableEq, Repr

namespace Place

/-- Outside of all constructs. -/
def top : Place := ⟨false, false⟩

/-- In the body of a closure. -/
def call : Place := ⟨false, true⟩

/-- In the body of a loop. -/
def loop (p : Place) : Place := { p with jumps := true }

end Place

/-- The statements that may stand in a place, with the blocks and branches inside them. -/
inductive Node.Fits : Place → Node → Prop
  | expression {p : Place} {n : Node} (h : n.Expression) : Fits p n
  | block {p : Place} {ss : List Node} (statements : ∀ s ∈ ss, Fits p s) : Fits p (.block ss)
  | branch {p : Place} {fallback : Bool} {guard : Node} {ss : List Node}
      (guarded : guard.Expression) (body : Fits p (.block ss)) :
      Fits p (.construct (.branch fallback) [guard] ss)
  | chain {p : Place} {bs : List Node} (chained : isChain bs = true)
      (branches : ∀ b ∈ bs, Fits p b) : Fits p (.plain .chain bs)
  | whileLoop {p : Place} {guard : Node} {ss : List Node} (guarded : guard.Expression)
      (body : Fits p.loop (.block ss)) : Fits p (.construct .whileLoop [guard] ss)
  | doLoop {p : Place} {guard : Node} {ss : List Node} (guarded : guard.Expression)
      (body : Fits p.loop (.block ss)) : Fits p (.construct .doLoop [guard] ss)
  | forLoop {p : Place} {counter : String} {start limit step : Node} {ss : List Node}
      (started : start.Expression) (limited : limit.Expression) (stepped : step.Expression)
      (body : Fits p.loop (.block ss)) :
      Fits p (.construct (.forLoop counter) [start, limit, step] ss)
  | closure {p : Place} {kind : ClosureKind} {name : String} {params : List String} {ss : List Node}
      (word : Text.isWord name = true) (distinct : params.Nodup) (body : Fits .call (.block ss)) :
      Fits p (.construct (kind.control name params) [] ss)
  | jump {p : Place} (j : Jump) (inLoop : p.jumps = true) : Fits p j.node
  | returned {p : Place} {value : Option Node} (inCall : p.returns = true)
      (valued : ∀ e ∈ value, e.Expression) : Fits p (.plain .returned value.toList)
  | inclusion {p : Place} (what : Inclusion) : Fits p (.plain (.inclusion what) [])
  | program {p : Place} {ss : List Node} (statements : ∀ s ∈ ss, Fits .top s) :
      Fits p (.program ss)

namespace Node

/-- A construct is well formed if its parts are and its kind asks for a body in this place. -/
theorem wellFormed_construct {c : Control} {head ss : List Node}
    (shape : (construct c head ss).shapedAs c = true) (parts : ∀ n ∈ head, n.WellFormed)
    (body : (block ss).WellFormed) : (construct c head ss).WellFormed := by
  refine wellFormed_iff.2 ⟨shape, ?_⟩
  intro n hn
  rcases List.mem_append.1 hn with hn | hn
  · exact parts n hn
  · rw [List.mem_singleton.1 hn]
    exact body

/-- Every tree that the rules build is well formed. -/
theorem Fits.wellFormed {p : Place} {n : Node} (h : n.Fits p) : n.WellFormed := by
  induction h with
  | expression h => exact h.wellFormed
  | block _ ih => exact wellFormed_iff.2 ⟨rfl, ih⟩
  | branch guarded _ ih =>
    exact wellFormed_construct (hasBodyAfter_construct ..) (by simp [guarded.wellFormed]) ih
  | chain chained _ ih => exact wellFormed_iff.2 ⟨chained, ih⟩
  | whileLoop guarded _ ih =>
    exact wellFormed_construct (hasBodyAfter_construct ..) (by simp [guarded.wellFormed]) ih
  | doLoop guarded _ ih =>
    exact wellFormed_construct (hasBodyAfter_construct ..) (by simp [guarded.wellFormed]) ih
  | forLoop started limited stepped _ ih =>
    refine wellFormed_construct (hasBodyAfter_construct ..) ?_ ih
    simp [started.wellFormed, limited.wellFormed, stepped.wellFormed]
  | @closure p kind name params ss _ distinct _ ih =>
    have hbody : (construct (kind.control name params) [] ss).hasBodyAfter 0 = true :=
      hasBodyAfter_construct ..
    refine wellFormed_construct ?_ (by simp) ih
    cases kind <;> simpa [ClosureKind.control, shapedAs, distinct] using hbody
  | jump j _ => cases j <;> exact wellFormed_iff.2 ⟨rfl, by simp [Jump.node, plain, children]⟩
  | returned _ valued =>
    exact wellFormed_iff.2 ⟨rfl, fun e he => (valued e (Option.mem_toList.1 he)).wellFormed⟩
  | inclusion _ => exact wellFormed_iff.2 ⟨rfl, by simp [plain, children]⟩
  | program _ ih => exact wellFormed_iff.2 ⟨rfl, ih⟩

end Node

/-! ### Statements with words for names -/

/-- A statement that may stand in a place, and that binds words only. -/
structure Node.Placed (p : Place) (n : Node) : Prop where
  fits : n.Fits p
  worded : n.Worded

namespace Node

variable {p : Place}

theorem worded_block {ss : List Node} (h : ∀ s ∈ ss, s.Worded) : (block ss).Worded :=
  worded_iff.2 ⟨List.forall_mem_nil _, h⟩

/-- The names of a construct with a body are its own, those of its head and those of its body. -/
theorem worded_construct {c : Control} {head ss : List Node}
    (names : ∀ x ∈ (NodeKind.control c).names, Text.isWord x = true) (parts : ∀ n ∈ head, n.Worded)
    (body : (block ss).Worded) : (construct c head ss).Worded := by
  refine worded_iff.2 ⟨names, fun n hn => ?_⟩
  rcases List.mem_append.1 hn with hn | hn
  · exact parts n hn
  · rw [List.mem_singleton.1 hn]
    exact body

namespace Placed

theorem expression {n : Node} (h : n.Expression) : n.Placed p := ⟨.expression h, h.worded⟩

theorem block {ss : List Node} (h : ∀ s ∈ ss, s.Placed p) : (Node.block ss).Placed p :=
  ⟨.block fun s hs => (h s hs).fits, worded_block fun s hs => (h s hs).worded⟩

theorem branch {fallback : Bool} {guard : Node} {ss : List Node} (guarded : guard.Expression)
    (body : (Node.block ss).Placed p) : (construct (.branch fallback) [guard] ss).Placed p :=
  ⟨.branch guarded body.fits,
    worded_construct (List.forall_mem_nil _)
      (List.forall_mem_singleton.2 guarded.worded) body.worded⟩

theorem chain {bs : List Node} (chained : isChain bs = true) (h : ∀ b ∈ bs, b.Placed p) :
    (plain .chain bs).Placed p :=
  ⟨.chain chained fun b hb => (h b hb).fits,
    worded_iff.2 ⟨List.forall_mem_nil _, fun b hb => (h b hb).worded⟩⟩

theorem whileLoop {guard : Node} {ss : List Node} (guarded : guard.Expression)
    (body : (Node.block ss).Placed p.loop) : (construct .whileLoop [guard] ss).Placed p :=
  ⟨.whileLoop guarded body.fits,
    worded_construct (List.forall_mem_nil _)
      (List.forall_mem_singleton.2 guarded.worded) body.worded⟩

theorem doLoop {guard : Node} {ss : List Node} (guarded : guard.Expression)
    (body : (Node.block ss).Placed p.loop) : (construct .doLoop [guard] ss).Placed p :=
  ⟨.doLoop guarded body.fits,
    worded_construct (List.forall_mem_nil _)
      (List.forall_mem_singleton.2 guarded.worded) body.worded⟩

theorem forLoop {counter : String} {start limit step : Node} {ss : List Node}
    (word : Text.isWord counter = true) (started : start.Expression) (limited : limit.Expression)
    (stepped : step.Expression) (body : (Node.block ss).Placed p.loop) :
    (construct (.forLoop counter) [start, limit, step] ss).Placed p := by
  refine ⟨.forLoop started limited stepped body.fits, ?_⟩
  refine worded_construct (List.forall_mem_singleton.2 word) ?_ body.worded
  simp [started.worded, limited.worded, stepped.worded]

theorem closure {kind : ClosureKind} {name : String} {params : List String} {ss : List Node}
    (word : Text.isWord name = true) (distinct : params.Nodup)
    (words : ∀ x ∈ params, Text.isWord x = true) (body : (Node.block ss).Placed .call) :
    (construct (kind.control name params) [] ss).Placed p := by
  refine ⟨.closure word distinct body.fits, worded_construct ?_ (List.forall_mem_nil _) body.worded⟩
  cases kind <;> exact List.forall_mem_cons.2 ⟨word, words⟩

theorem jump (j : Jump) (inLoop : p.jumps = true) : j.node.Placed p := by
  refine ⟨.jump j inLoop, worded_iff.2 ?_⟩
  cases j <;> exact ⟨List.forall_mem_nil _, List.forall_mem_nil _⟩

theorem returned {value : Option Node} (inCall : p.returns = true)
    (valued : ∀ e ∈ value, e.Expression) :
    (plain .returned value.toList).Placed p :=
  ⟨.returned inCall valued,
    worded_iff.2 ⟨List.forall_mem_nil _, fun e he => (valued e (Option.mem_toList.1 he)).worded⟩⟩

theorem inclusion (what : Inclusion) : (plain (.inclusion what) []).Placed p :=
  ⟨.inclusion what, worded_iff.2 ⟨List.forall_mem_nil _, List.forall_mem_nil _⟩⟩

end Placed
end Node
end LineBasic
