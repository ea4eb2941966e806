import Mathlib.Data.List.Forall2
import Mathlib.Data.List.TakeDrop
import LineBasic.Proofs.Scaffold

/-!
# The open constructs of a tree that is built in place

A node that is built in place is finished once it and all below it are closed, and from then on
nothing changes it. The nodes that are not finished make up a spine: from the root on, each of them
is the last child of the one before.

* `Cells.Shows` : a finished node and all below it, none of which is open.
* `Cells.Spine` : the open constructs of a draft, each of them the last child
  of the block around it.
* `Cells.Draws` : nodes that show a draft; `Cells.Draws.attach`, `Cells.Draws.raise`,
  `Cells.Draws.close` and `Cells.Draws.abandon` are what the statements and the calls do to them.
* `Cells.Spine.bottom`, `Cells.Spine.continues` : what a spine says of the root and of the stack.
-/

namespace LineBasic

/-! ### Nodes that are changed, and nodes that are not -/

namespace Cells

variable {cells cells' : Cells} {opens opens' : List CellId} {id parent owner : CellId}
  {cell : Cell} {content : Content}

theorem lt_length (h : cells[id]? = some cell) : id < cells.length :=
  (List.getElem?_eq_some_iff.1 h).1

theorem modify_of_ne (h : cells[id]? = some cell) (ne : id ≠ parent) (f : Cell → Cell) :
    (List.modify cells parent f)[id]? = some cell := by
  rw [List.getElem?_modify, h]
  simp [Ne.symm ne]

theorem modify_self (h : cells[id]? = some cell) (f : Cell → Cell) :
    (List.modify cells id f)[id]? = some (f cell) := by
  rw [List.getElem?_modify, h]
  simp

@[simp] theorem length_grow : (cells.grow parent content).length = cells.length + 1 := by
  simp [grow]

theorem grow_of_ne (h : cells[id]? = some cell) (ne : id ≠ parent) :
    (cells.grow parent content)[id]? = some cell := by
  have hsame := modify_of_ne h ne fun c => { c with children := c.children ++ [cells.length] }
  rw [grow, List.getElem?_append_left (List.getElem?_eq_some_iff.1 hsame).1, hsame]

theorem grow_parent (h : cells[parent]? = some cell) :
    (cells.grow parent content)[parent]? =
      some { cell with children := cell.children ++ [cells.length] } := by
  have hself := modify_self h fun c => { c with children := c.children ++ [cells.length] }
  rw [grow, List.getElem?_append_left (List.getElem?_eq_some_iff.1 hself).1, hself]

theorem grow_new :
    (cells.grow parent content)[cells.length]? = some ⟨content, [], none, some parent⟩ := by
  rw [grow, List.getElem?_append_right (by simp)]
  simp

/-- A node gets children that came whole, and no other node is changed. -/
theorem growAll_spec (h : cells[owner]? = some cell) (ns : List Node) :
    ∃ ids, (cells.growAll owner ns)[owner]? = some { cell with children := cell.children ++ ids } ∧
      List.Forall₂ (fun i n => owner < i ∧ cells.length ≤ i ∧
        (cells.growAll owner ns)[i]? = some ⟨.whole n, [], none, some owner⟩) ids ns ∧
      (∀ i c, i ≠ owner → cells[i]? = some c → (cells.growAll owner ns)[i]? = some c) ∧
      cells.length ≤ (cells.growAll owner ns).length := by
  induction ns generalizing cells cell with
  | nil => exact ⟨[], by simpa [growAll] using h, .nil, fun i c _ hi => hi, Nat.le_refl _⟩
  | cons n ns ih =>
    obtain ⟨ids, howner, hids, hothers, hlength⟩ := ih (grow_parent h)
    rw [length_grow] at hlength
    have hlt := lt_length h
    refine ⟨cells.length :: ids, ?_, .cons ⟨hlt, Nat.le_refl _, ?_⟩ (hids.imp fun i n hi => ?_),
      fun i c hi hc => ?_, Nat.le_of_succ_le hlength⟩
    · rw [growAll, howner, List.append_assoc]
      rfl
    · exact hothers _ _ (Nat.ne_of_gt hlt) grow_new
    · rw [length_grow] at hi
      exact ⟨hi.1, Nat.le_of_succ_le hi.2.1, hi.2.2⟩
    · exact hothers i c hi (grow_of_ne hc hi)

@[simp] theorem length_growBody : (cells.growBody owner).length = cells.length + 1 := by
  simp [growBody]

/-- A node gets a body, and no other node is changed. -/
theorem growBody_spec (h : cells[owner]? = some cell) :
    (cells.growBody owner)[owner]? =
        some { cell with
          children := cell.children ++ [cells.length], body := some cell.children.length } ∧
      (cells.growBody owner)[cells.length]? = some ⟨.control .block, [], none, some owner⟩ ∧
      (∀ i c, i ≠ owner → cells[i]? = some c → (cells.growBody owner)[i]? = some c) ∧
      (cells.growBody owner).length = cells.length + 1 := by
  refine ⟨?_, ?_, fun i c hi hc => modify_of_ne (grow_of_ne hc hi) hi _, length_growBody⟩
  · rw [growBody, modify_self (grow_parent h)]
    simp
  · exact modify_of_ne grow_new (Nat.ne_of_gt (lt_length h)) _

/-- A node gets a new first child that came whole, and no other node is changed. -/
theorem replaceFirst_spec {first : CellId} {others : List CellId} {body : Option Nat}
    {parent : Option CellId} (h : cells[owner]? = some ⟨content, first :: others, body, parent⟩)
    (n : Node) :
    (cells.replaceFirst owner n)[owner]? = some ⟨content, cells.length :: others, body, parent⟩ ∧
      (cells.replaceFirst owner n)[cells.length]? = some ⟨.whole n, [], none, some owner⟩ ∧
      ∀ i c, i ≠ owner → cells[i]? = some c → (cells.replaceFirst owner n)[i]? = some c := by
  refine ⟨?_, ?_, fun i c hi hc => ?_⟩
  · have hself := modify_self h fun c => { c with children := c.children.set 0 cells.length }
    rw [replaceFirst, List.getElem?_append_left (lt_length hself), hself]
    rfl
  · rw [replaceFirst, List.getElem?_append_right (by simp)]
    simp
  · have hsame := modify_of_ne hc hi fun c => { c with children := c.children.set 0 cells.length }
    rw [replaceFirst, List.getElem?_append_left (lt_length hsame), hsame]

/-! ### Finished nodes -/

theorem forall₂_iff_getElem? {α β : Type} {R : α → β → Prop} {as : List α} {bs : List β} :
    List.Forall₂ R as bs ↔
      as.length = bs.length ∧ ∀ (k : Nat) a b, as[k]? = some a → bs[k]? = some b → R a b := by
  rw [List.forall₂_iff_get]
  refine and_congr_right fun _ => ⟨fun h k a b ha hb => ?_, fun h k ha hb => ?_⟩
  · obtain ⟨hka, rfl⟩ := List.getElem?_eq_some_iff.1 ha
    obtain ⟨hkb, rfl⟩ := List.getElem?_eq_some_iff.1 hb
    exact h k hka hkb
  · exact h k _ _ (List.getElem?_eq_getElem ha) (List.getElem?_eq_getElem hb)

/-- A node shows a tree, and neither it nor any node below it is one of the open ones. -/
inductive Shows (cells : Cells) (opens : List CellId) : CellId → Node → Prop
  | whole {id : CellId} {n : Node} {parent : Option CellId} (closed : id ∉ opens)
      (cell : cells[id]? = some ⟨.whole n, [], none, parent⟩) : Shows cells opens id n
  | control {id : CellId} {c : Control} {ids : List CellId} {body : Option Nat}
      {parent : Option CellId} {ns : List Node} (closed : id ∉ opens)
      (cell : cells[id]? = some ⟨.control c, ids, body, parent⟩) (length : ids.length = ns.length)
      (newer : ∀ i ∈ ids, id < i)
      (children : ∀ (k : Nat) (i : CellId) (n : Node), ids[k]? = some i → ns[k]? = some n →
        Shows cells opens i n) :
      Shows cells opens id (.mk (.control c) ns (body.map UInt64.ofNat))

/-- The children of a node, which are newer, show trees. -/
abbrev Under (cells : Cells) (opens : List CellId) (id : CellId) : List CellId → List Node → Prop :=
  List.Forall₂ fun i n => id < i ∧ Shows cells opens i n

theorem Shows.not_mem {n : Node} (h : Shows cells opens id n) : id ∉ opens := by
  cases h with
  | whole closed => exact closed
  | control closed => exact closed

/-- Only open nodes can be changed without a finished one being changed. -/
theorem Shows.mono {n : Node} (h : Shows cells opens id n)
    (keep : ∀ i c, i ∉ opens → cells[i]? = some c → i ∉ opens' ∧ cells'[i]? = some c) :
    Shows cells' opens' id n := by
  induction h with
  | whole closed cell => exact .whole (keep _ _ closed cell).1 (keep _ _ closed cell).2
  | control closed cell length newer children ih =>
    exact .control (keep _ _ closed cell).1 (keep _ _ closed cell).2 length newer ih

theorem Shows.readUpTo {n : Node} (h : Shows cells opens id n) {k : Nat}
    (hk : cells.length ≤ id + k) :
    cells.readUpTo k id = n := by
  induction h generalizing k with
  | whole closed cell =>
    cases k with
    | zero => exact absurd hk (Nat.not_le.2 (lt_length cell))
    | succ k => simp only [Cells.readUpTo, cell]
  | @control id c ids body parent ns closed cell length newer children ih =>
    cases k with
    | zero => exact absurd hk (Nat.not_le.2 (lt_length cell))
    | succ k =>
      have hchildren : List.Forall₂ (fun i n => cells.readUpTo k i = n) ids ns := by
        refine forall₂_iff_getElem?.2 ⟨length, fun j i n hi hn => ih j i n hi hn ?_⟩
        calc cells.length ≤ id + 1 + k := by rw [Nat.add_right_comm]; exact hk
          _ ≤ i + k := Nat.add_le_add_right (newer i (List.mem_of_getElem? hi)) k
      rw [← List.forall₂_map_left_iff, List.forall₂_eq_eq_eq] at hchildren
      simp only [Cells.readUpTo, cell, hchildren]

theorem Shows.read {n : Node} (h : Shows cells opens id n) : cells.read id = n :=
  h.readUpTo (Nat.le_add_left ..)

theorem Under.mono {ids : List CellId} {ns : List Node} (h : Under cells opens id ids ns)
    (keep : ∀ i c, i ∉ opens → cells[i]? = some c → i ∉ opens' ∧ cells'[i]? = some c) :
    Under cells' opens' id ids ns :=
  h.imp fun _ _ hi => ⟨hi.1, hi.2.mono keep⟩

theorem Under.concat {ids : List CellId} {ns : List Node} {i : CellId} {n : Node}
    (h : Under cells opens id ids ns) (newer : id < i) (hi : Shows cells opens i n) :
    Under cells opens id (ids ++ [i]) (ns ++ [n]) :=
  List.rel_append h (.cons ⟨newer, hi⟩ .nil)

theorem Under.newer_closed {ids : List CellId} {ns : List Node}
    (h : Under cells opens owner ids ns) :
    ∀ i ∈ ids, owner < i ∧ i ∉ opens := by
  induction h with
  | nil => nofun
  | cons hi _ ih => exact List.forall_mem_cons.2 ⟨⟨hi.1, hi.2.not_mem⟩, ih⟩

/-- A construct of which all parts are finished. -/
theorem shows_control {c : Control} {ids : List CellId} {ns : List Node} {body : Option Nat}
    {parent : Option CellId} (closed : id ∉ opens)
    (h : cells[id]? = some ⟨.control c, ids, body, parent⟩)
    (children : Under cells opens id ids ns) :
    Shows cells opens id (.mk (.control c) ns (body.map UInt64.ofNat)) := by
  obtain ⟨hlength, hchildren⟩ := forall₂_iff_getElem?.1 children
  exact .control closed h hlength (fun i hi => (children.newer_closed i hi).1)
    fun k i n hi hn => (hchildren k i n hi hn).2

/-- A construct with its body. -/
theorem shows_construct {c : Control} {gs ids : List CellId} {guards statements : List Node}
    {block : CellId} {parent : Option CellId} (closed : id ∉ opens) (closedBody : block ∉ opens)
    (newer : id < block) (h : cells[id]? = some ⟨.control c, gs ++ [block], some gs.length, parent⟩)
    (hguards : Under cells opens id gs guards)
    (hbody : cells[block]? = some ⟨.control .block, ids, none, some id⟩)
    (hstatements : Under cells opens block ids statements) :
    Shows cells opens id (.construct c guards statements) := by
  have hblock : Shows cells opens block (.block statements) :=
    shows_control closedBody hbody hstatements
  have hshows := shows_control closed h (hguards.concat newer hblock)
  rw [hguards.length_eq] at hshows
  exact hshows

end Cells

/-! ### Open constructs -/

namespace BlockHead

/-- The nodes before the body; `again` is the guard of a `DO` loop. -/
def guards (again : Node) : BlockHead → List Node
  | branch _ guard _ => [guard]
  | whileLoop guard => [guard]
  | doLoop => [again]
  | forLoop _ start limit step => [start, limit, step]
  | closure _ _ _ => []

/-- Only a branch is not a child of the block around it, but of a chain. -/
def isBranch : BlockHead → Bool
  | branch _ _ _ => true
  | _ => false

end BlockHead

namespace Cells

/-- Where the construct `owner` of a head stands: it is a child of the block `below`, or of a chain
that is one. In the block the child is `top`, and `holder` is what the construct is a child of. -/
inductive Site (cells : Cells) (all : List CellId) (below : CellId) :
    BlockHead → CellId → CellId → CellId → List CellId → Prop
  | alone {head : BlockHead} {owner : CellId} (single : head.isBranch = false) :
      Site cells all below head owner owner below []
  | chained {fallback : Bool} {guard : Node} {earlier : List Node} {chain owner : CellId}
      {ids : List CellId}
      (cell : cells[chain]? = some ⟨.control .chain, ids ++ [owner], none, some below⟩)
      (branches : Under cells all chain ids earlier) :
      Site cells all below (.branch fallback guard earlier) chain owner chain [chain]

/-- The open blocks of a draft are those of a stack, and each of the constructs is the last child of
the block around it. The innermost block has one more child `inner` if there is one. The nodes in
`opens` are the blocks and all that is between them; those in `all` may still be changed. -/
inductive Spine (cells : Cells) (all finished : List CellId) :
    List OpenBlock → Option CellId → List (CellId × Nat) → List CellId → Prop
  | base {inner : Option CellId}
      (cell : cells[root]? = some ⟨.control .program, finished ++ inner.toList, none, none⟩) :
      Spine cells all finished [] inner [(root, 0)] [root]
  | block {b : OpenBlock} {bs : List OpenBlock} {inner : Option CellId}
      {top owner holder block below : CellId} {line : Nat} {blocks : List (CellId × Nat)}
      {path opens ids gs : List CellId}
      (outer : Spine cells all finished bs (some top) ((below, line) :: blocks) opens)
      (site : Site cells all below b.head top owner holder path)
      (construct : cells[owner]? =
        some ⟨.control b.head.control, gs ++ [block], some gs.length, some holder⟩)
      (guards : Under cells all owner gs (b.head.guards (.literal .nothing)))
      (body : cells[block]? = some ⟨.control .block, ids ++ inner.toList, none, some owner⟩)
      (statements : Under cells all block ids b.statements.toList) :
      Spine cells all finished (b :: bs) inner ((block, b.line) :: (below, line) :: blocks)
        (block :: owner :: (path ++ opens))

variable {cells cells' : Cells} {all all' opens finished path : List CellId}
  {below top owner holder : CellId} {head : BlockHead} {bs : List OpenBlock} {inner : Option CellId}
  {blocks : List (CellId × Nat)}

theorem Site.mono (h : Site cells all below head top owner holder path)
    (keep : ∀ i c, i ∉ all → cells[i]? = some c → i ∉ all' ∧ cells'[i]? = some c)
    (same : ∀ i ∈ path, ∀ c, cells[i]? = some c → cells'[i]? = some c) :
    Site cells' all' below head top owner holder path := by
  cases h with
  | alone single => exact .alone single
  | chained cell branches => exact .chained (same _ (.head _) _ cell) (branches.mono keep)

theorem Site.lt_length (h : Site cells all below head top owner holder path) :
    ∀ i ∈ path, i < cells.length := by
  cases h with
  | alone single => nofun
  | chained cell branches => exact fun i hi => List.mem_singleton.1 hi ▸ Cells.lt_length cell

/-- A spine is kept if its nodes are not changed, and what is finished is not changed either. -/
theorem Spine.mono (h : Spine cells all finished bs inner blocks opens)
    (keep : ∀ i c, i ∉ all → cells[i]? = some c → i ∉ all' ∧ cells'[i]? = some c)
    (same : ∀ i ∈ opens, ∀ c, cells[i]? = some c → cells'[i]? = some c) :
    Spine cells' all' finished bs inner blocks opens := by
  induction h with
  | base cell => exact .base (same _ (.head _) _ cell)
  | block outer site construct guards body statements ih =>
    refine .block (ih fun i hi => same i ?_) (site.mono keep fun i hi => same i ?_)
      (same _ ?_ _ construct) (guards.mono keep) (same _ (.head _) _ body) (statements.mono keep)
    · exact .tail _ (.tail _ (List.mem_append_right _ hi))
    · exact .tail _ (.tail _ (List.mem_append_left _ hi))
    · exact .tail _ (.head _)

/-- All nodes of a spine are there. -/
theorem Spine.lt_length (h : Spine cells all finished bs inner blocks opens) :
    ∀ i ∈ opens, i < cells.length := by
  induction h with
  | base cell => exact fun i hi => List.mem_singleton.1 hi ▸ Cells.lt_length cell
  | block outer site construct guards body statements ih =>
    intro i hi
    rcases List.mem_cons.1 hi with rfl | hi
    · exact Cells.lt_length body
    · rcases List.mem_cons.1 hi with rfl | hi
      · exact Cells.lt_length construct
      · rcases List.mem_append.1 hi with hi | hi
        · exact site.lt_length i hi
        · exact ih i hi

/-- A new node is none of a spine. -/
theorem Spine.length_not_mem (h : Spine cells all finished bs inner blocks opens) :
    cells.length ∉ opens :=
  fun hi => Nat.lt_irrefl _ (h.lt_length _ hi)

/-- The innermost block comes first. -/
theorem Spine.exists_blocks (h : Spine cells all finished bs inner blocks opens) :
    ∃ target line rest others, blocks = (target, line) :: rest ∧ opens = target :: others := by
  cases h with
  | base => exact ⟨_, _, _, _, rfl, rfl⟩
  | block => exact ⟨_, _, _, _, rfl, rfl⟩

theorem Spine.target_mem {target : CellId} {line : Nat}
    (h : Spine cells all finished bs inner ((target, line) :: blocks) opens) : target ∈ opens := by
  cases h with
  | base => exact .head _
  | block => exact .head _

/-- The innermost block gets one more child. -/
theorem Spine.hang {target new : CellId} {line : Nat}
    (h : Spine cells all finished bs none ((target, line) :: blocks) opens)
    (sorted : opens.Pairwise (· > ·))
    (keep : ∀ i c, i ∉ all → cells[i]? = some c → i ∉ all' ∧ cells'[i]? = some c)
    (child : ∀ c, cells[target]? = some c →
      cells'[target]? = some { c with children := c.children ++ [new] })
    (same : ∀ i c, i ≠ target → cells[i]? = some c → cells'[i]? = some c) :
    Spine cells' all' finished bs (some new) ((target, line) :: blocks) opens := by
  cases h with
  | base cell =>
    refine .base ?_
    simpa using child _ cell
  | @block b bs inner top owner holder block below line blocks path opens ids gs outer site
    construct guards body
      statements =>
    have hne : ∀ i ∈ owner :: (path ++ opens), i ≠ target := fun i hi =>
      Nat.ne_of_lt ((List.pairwise_cons.1 sorted).1 i hi)
    refine .block (outer.mono keep fun i hi c hc => same i c (hne i ?_) hc)
      (site.mono keep fun i hi c hc => same i c (hne i ?_) hc)
        (same _ _ (hne _ (.head _)) construct)
      (guards.mono keep) ?_ (statements.mono keep)
    · exact .tail _ (List.mem_append_right _ hi)
    · exact .tail _ (List.mem_append_left _ hi)
    · simpa using child _ body

/-! ### Drafts that are drawn -/

/-- The nodes show a draft: its open constructs go along a spine, with one more child in the
innermost block if there is one, and its finished nodes are the finished ones of the root. -/
structure Draws (cells : Cells) (all finished : List CellId) (d : Draft) (inner : Option CellId)
    (blocks : List (CellId × Nat)) (opens : List CellId) : Prop where
  spine : Spine cells all finished d.opened inner blocks opens
  sorted : opens.Pairwise (· > ·)
  done : Under cells all root finished d.done.toList

variable {d : Draft} {target new : CellId} {line : Nat} {n : Node}

/-- Nodes along the spine are not changed, and neither is what is finished. -/
theorem Draws.mono (h : Draws cells all finished d inner blocks opens)
    (keep : ∀ i c, i ∉ all → cells[i]? = some c → i ∉ all' ∧ cells'[i]? = some c)
    (same : ∀ i ∈ opens, ∀ c, cells[i]? = some c → cells'[i]? = some c) :
    Draws cells' all' finished d inner blocks opens :=
  ⟨h.spine.mono keep same, h.sorted, h.done.mono keep⟩

/-- Fewer nodes may still be changed. -/
theorem Draws.fewer (h : Draws cells all finished d inner blocks opens)
    (sub : ∀ i ∈ all', i ∈ all) :
    Draws cells all' finished d inner blocks opens :=
  h.mono (fun i _ hi hc => ⟨fun hmem => hi (sub i hmem), hc⟩) fun _ _ _ hc => hc

/-- A node beside the spine, which may still be changed, gets a child. -/
theorem Draws.grow_beside (h : Draws cells all finished d inner blocks opens) (mem : holder ∈ all)
    (beside : holder ∉ opens) (content : Content) :
    Draws (cells.grow holder content) (cells.length :: all) finished d inner blocks opens :=
  h.mono
    (fun _ _ hi hc => ⟨List.not_mem_cons_of_ne_of_not_mem (Nat.ne_of_lt (Cells.lt_length hc)) hi,
      grow_of_ne hc fun e => hi (e ▸ mem)⟩)
    fun _ hi _ hc => grow_of_ne hc fun e => beside (e ▸ hi)

/-- The innermost block gets one more child. -/
theorem Draws.hang (h : Draws cells all finished d none ((target, line) :: blocks) opens)
    (keep : ∀ i c, i ∉ all → cells[i]? = some c → i ∉ all' ∧ cells'[i]? = some c)
    (child : ∀ c, cells[target]? = some c →
      cells'[target]? = some { c with children := c.children ++ [new] })
    (same : ∀ i c, i ≠ target → cells[i]? = some c → cells'[i]? = some c) :
    Draws cells' all' finished d (some new) ((target, line) :: blocks) opens :=
  ⟨h.spine.hang h.sorted keep child same, h.sorted, h.done.mono keep⟩

/-- The last child of the innermost block is finished. -/
theorem Draws.absorb (h : Draws cells all finished d (some new) ((target, line) :: blocks) opens)
    (hn : Shows cells all new n) (newer : target < new) :
    Draws cells all (finished ++ ((d.attach n).2.map fun _ => new).toList) (d.attach n).1 none
      ((target, line) :: blocks) opens := by
  obtain ⟨hspine, sorted, hdone⟩ := h
  obtain ⟨nodes, opened⟩ := d
  cases hspine with
  | base cell =>
    refine ⟨.base ?_, sorted, ?_⟩
    · simpa [Draft.attach] using cell
    · simpa [Draft.attach] using hdone.concat newer hn
  | @block b bs inner top owner holder block below line₀ blocks path opens ids gs outer site
    construct guards body
      statements =>
    refine ⟨?_, sorted, by simpa [Draft.attach] using hdone⟩
    have hspine : Spine cells all finished ({ b with statements := b.statements.push n } :: bs) none
        ((target, b.line) :: (below, line₀) :: blocks) (target :: owner :: (path ++ opens)) :=
      .block outer site construct guards (by simpa using body)
        (by simpa using statements.concat newer hn)
    simpa [Draft.attach] using hspine

/-- A new node is the last child of the innermost block. -/
theorem Draws.grow (h : Draws cells opens finished d none ((target, line) :: blocks) opens)
    (content : Content) :
    Draws (cells.grow target content) (cells.length :: opens) finished d (some cells.length)
      ((target, line) :: blocks) opens := by
  refine h.hang (fun i c hi hc => ⟨?_, grow_of_ne hc fun e => hi (e ▸ h.spine.target_mem)⟩)
    (fun c hc => grow_parent hc) fun i c hi hc => grow_of_ne hc hi
  exact List.not_mem_cons_of_ne_of_not_mem (Nat.ne_of_lt (Cells.lt_length hc)) hi

/-- A node that came whole is added. -/
theorem Draws.attach (h : Draws cells opens finished d none ((target, line) :: blocks) opens)
    (n : Node) :
    Draws (cells.grow target (.whole n)) opens
      (finished ++ ((d.attach n).2.map fun _ => cells.length).toList) (d.attach n).1 none
      ((target, line) :: blocks) opens := by
  exact ((h.grow (.whole n)).fewer fun i hi => .tail _ hi).absorb
    (.whole h.spine.length_not_mem grow_new) (h.spine.lt_length _ h.spine.target_mem)

/-- A construct that is there gets its guards and a body, which becomes the innermost block. -/
theorem Draws.raise
    (h : Draws cells (owner :: (path ++ opens)) finished d (some top)
      ((target, line) :: blocks) opens)
    (site : Site cells (owner :: (path ++ opens)) target head top owner holder path)
    (construct : cells[owner]? = some ⟨.control head.control, [], none, some holder⟩)
    (sorted : (owner :: (path ++ opens)).Pairwise (· > ·)) (first : Nat) {block : CellId}
    (hblock : ((cells.growAll owner (head.guards (.literal .nothing))).growBody owner).length =
      block + 1) :
    Draws ((cells.growAll owner (head.guards (.literal .nothing))).growBody owner)
      (block :: owner :: (path ++ opens)) finished (d.enter head first) none
      ((block, first) :: (target, line) :: blocks) (block :: owner :: (path ++ opens)) := by
  obtain ⟨gs, howner, hgs, hothers, hlength⟩ :=
    growAll_spec construct (head.guards (.literal .nothing))
  obtain ⟨hconstruct, hbody, hrest, hnew⟩ := growBody_spec howner
  have hblock : (cells.growAll owner (head.guards (.literal .nothing))).length = block :=
    Nat.succ.inj (hnew.symm.trans hblock)
  rw [List.nil_append] at hconstruct
  rw [hblock] at hconstruct hbody hlength
  have hlt : ∀ i ∈ owner :: (path ++ opens), i < cells.length := fun i hi => by
    rcases List.mem_cons.1 hi with rfl | hi
    · exact Cells.lt_length construct
    · exact Nat.lt_trans ((List.pairwise_cons.1 sorted).1 i hi) (Cells.lt_length construct)
  have same (i : CellId) (c : Cell) (hi : i ≠ owner) (hc : cells[i]? = some c) :=
    hrest i c hi (hothers i c hi hc)
  have hne : ∀ i ∈ path ++ opens, i ≠ owner := fun i hi =>
    Nat.ne_of_lt ((List.pairwise_cons.1 sorted).1 i hi)
  have keep (i : CellId) (c : Cell) (hi : i ∉ owner :: (path ++ opens)) (hc : cells[i]? = some c) :=
    And.intro
      (List.not_mem_cons_of_ne_of_not_mem
        (Nat.ne_of_lt (Nat.lt_of_lt_of_le (Cells.lt_length hc) hlength)) hi)
      (same i c (List.ne_of_not_mem_cons hi) hc)
  have hguards : Under ((cells.growAll owner (head.guards (.literal .nothing))).growBody owner)
      (block :: owner :: (path ++ opens)) owner gs (head.guards (.literal .nothing)) := by
    refine hgs.imp fun i n hi =>
      ⟨hi.1, .whole (fun hmem => ?_) (hrest i _ (Nat.ne_of_gt hi.1) hi.2.2)⟩
    rcases List.mem_cons.1 hmem with rfl | hmem
    · exact Nat.lt_irrefl _ (hblock ▸ Cells.lt_length hi.2.2)
    · exact Nat.not_lt.2 hi.2.1 (hlt i hmem)
  refine ⟨.block (h.spine.mono keep fun i hi => ?_) (site.mono keep fun i hi => ?_)
    hconstruct hguards
    (by simpa using hbody) .nil, .cons (fun i hi => ?_) sorted, h.done.mono keep⟩
  · exact fun c => same i c (hne i (List.mem_append_right _ hi))
  · exact fun c => same i c (hne i (List.mem_append_left _ hi))
  · exact Nat.lt_of_lt_of_le (hlt i hi) hlength

/-- A construct that is closed is finished, and it is what the block around it ends with. -/
theorem Draws.close {b : OpenBlock} {nodes : Array Node} {again : Node} {block : CellId}
    {gs ids : List CellId}
    (outer : Spine cells (block :: owner :: (path ++ opens)) finished bs (some top)
      ((below, line) :: blocks) opens)
    (site : Site cells (block :: owner :: (path ++ opens)) below b.head top owner holder path)
    (body : cells[block]? = some ⟨.control .block, ids, none, some owner⟩)
    (statements : Under cells (block :: owner :: (path ++ opens)) block ids b.statements.toList)
    (sorted : (block :: owner :: (path ++ opens)).Pairwise (· > ·))
    (done : Under cells (block :: owner :: (path ++ opens)) root finished nodes.toList)
    (others : ∀ i c, i ≠ owner → cells[i]? = some c → cells'[i]? = some c)
    (construct : cells'[owner]? =
      some ⟨.control b.head.control, gs ++ [block], some gs.length, some holder⟩)
    (guards : Under cells' opens owner gs (b.head.guards again)) :
    Draws cells' opens
      (finished ++ ((Draft.attach ⟨nodes, bs⟩ (b.node again)).2.map fun _ => top).toList)
      (Draft.attach ⟨nodes, bs⟩ (b.node again)).1 none ((below, line) :: blocks) opens := by
  obtain ⟨start, first, inside⟩ := b
  obtain ⟨hblock, howner⟩ := List.pairwise_cons.1 sorted
  obtain ⟨howner, hinner⟩ := List.pairwise_cons.1 howner
  obtain ⟨-, hopens, hbetween⟩ := List.pairwise_append.1 hinner
  have hbelow : below ∈ opens := outer.target_mem
  have hownerNot : owner ∉ opens :=
    fun hi => Nat.lt_irrefl _ (howner _ (List.mem_append_right _ hi))
  have hblockNot : block ∉ opens := fun hi =>
    Nat.lt_irrefl _ (hblock _ (.tail _ (List.mem_append_right _ hi)))
  have keep : ∀ i c, i ∉ block :: owner :: (path ++ opens) → cells[i]? = some c →
      i ∉ opens ∧ cells'[i]? = some c := fun i c hi hc =>
    ⟨fun hmem => hi (.tail _ (.tail _ (List.mem_append_right _ hmem))),
      others i c (fun e => hi (e ▸ .tail _ (.head _))) hc⟩
  have houter :
      Draws cells' opens finished ⟨nodes, bs⟩ (some top) ((below, line) :: blocks) opens :=
    ⟨outer.mono keep fun i hi c hc =>
      others i c (fun e => hownerNot (e ▸ hi)) hc, hopens, done.mono keep⟩
  have hconstruct := shows_construct hownerNot hblockNot (hblock owner (.head _)) construct guards
    (others block _ (Nat.ne_of_gt (hblock owner (.head _))) body) (statements.mono keep)
  cases site with
  | alone single =>
    refine houter.absorb ?_ (howner below hbelow)
    cases start with
    | branch => cases single
    | _ => exact hconstruct
  | @chained fallback guard earlier chain owner ids cell branches =>
    have hchain : top < owner := howner _ (.head _)
    exact houter.absorb (shows_control (fun hi => Nat.lt_irrefl _ (hbetween _ (.head _) _ hi))
      (others top _ (Nat.ne_of_lt hchain) cell) ((branches.mono keep).concat hchain hconstruct))
      (hbetween _ (.head _) _ hbelow)

/-- The next branch of a chain, which the branch before it is finished with. -/
theorem Site.nextBranch {fallback : Bool} {guard : Node} {earlier nodes : List Node}
    {block : CellId} {gs ids : List CellId} (fallback' : Bool) (guard' : Node)
    (site : Site cells (block :: owner :: (path ++ opens)) below (.branch fallback guard earlier)
      top owner holder path)
    (construct : cells[owner]? =
      some ⟨.control (.branch fallback), gs ++ [block], some gs.length, some holder⟩)
    (guards : Under cells (block :: owner :: (path ++ opens)) owner gs [guard])
    (body : cells[block]? = some ⟨.control .block, ids, none, some owner⟩)
    (statements : Under cells (block :: owner :: (path ++ opens)) block ids nodes)
    (sorted : (block :: owner :: (path ++ opens)).Pairwise (· > ·)) :
    path = [top] ∧ holder = top ∧
    Site (cells.grow top (.control (.branch fallback'))) (cells.length :: top :: opens) below
      (.branch fallback' guard' (earlier ++ [.construct (.branch fallback) [guard] nodes])) top
        cells.length top
      [top] := by
  cases site with
  | alone single => cases single
  | @chained fallback guard earlier chain owner branchIds cell branches =>
    obtain ⟨hblock, howner⟩ := List.pairwise_cons.1 sorted
    obtain ⟨howner, hinner⟩ := List.pairwise_cons.1 howner
    have hnew (i : CellId) (c : Cell) (hc : cells[i]? = some c) (hi : i ∉ top :: opens) :
        i ∉ cells.length :: top :: opens ∧
          (cells.grow top (.control (.branch fallback')))[i]? = some c :=
      ⟨List.not_mem_cons_of_ne_of_not_mem (Nat.ne_of_lt (Cells.lt_length hc)) hi,
        grow_of_ne hc (List.ne_of_not_mem_cons hi)⟩
    have hownerNew := hnew owner _ construct fun hi => Nat.lt_irrefl _ (howner _ hi)
    have hblockNew := hnew block _ body fun hi => Nat.lt_irrefl _ (hblock _ (.tail _ hi))
    have keep (i : CellId) (c : Cell) (hi : i ∉ block :: owner :: ([top] ++ opens))
        (hc : cells[i]? = some c) :=
      hnew i c hc fun hmem => hi (.tail _ (.tail _ hmem))
    refine ⟨rfl, rfl,
      .chained (grow_parent cell) ((branches.mono keep).concat (howner _ (.head _)) ?_)⟩
    exact shows_construct hownerNew.1 hblockNew.1 (hblock owner (.head _)) hownerNew.2
      (guards.mono keep)
      hblockNew.2 (statements.mono keep)

/-! ### From the root on -/

/-- The last child of the innermost block. -/
theorem Spine.lastChild?_eq (h : Spine cells all finished bs inner ((target, line) :: blocks) opens)
    (hinner : inner = some top) : cells.lastChild? target = some top := by
  subst hinner
  cases h with
  | base cell => simp [lastChild?, cell]
  | block outer site construct guards body statements => simp [lastChild?, body]

/-- The root is at the bottom. Its last child is a construct of the spine, if there is one;
all others are finished. -/
theorem Spine.bottom (h : Spine cells all finished bs inner blocks opens) :
    root ∈ opens ∧ blocks.getLast? = some (root, 0) ∧
    ∃ last : Option CellId,
      cells[root]? = some ⟨.control .program, finished ++ last.toList, none, none⟩ ∧
      (bs = [] → last = inner) ∧
      (bs ≠ [] → ∃ id, last = some id ∧ id ∈ opens ∧ ∃ c, cells.control? id = some c) := by
  induction h with
  | @base inner cell => exact ⟨.head _, rfl, inner, cell, fun _ => rfl, fun h => absurd rfl h⟩
  | @block b bs inner top owner holder block below line blocks path opens ids gs outer site
    construct guards body
      statements ih =>
    obtain ⟨hroot, hlast, last, hcell, hnil, hcons⟩ := ih
    refine ⟨.tail _ (.tail _ (List.mem_append_right _ hroot)), by simpa using hlast,
      last, hcell, nofun, fun _ => ?_⟩
    by_cases hbs : bs = []
    · refine ⟨top, hnil hbs, ?_⟩
      obtain ⟨head, first, nodes⟩ := b
      cases site with
      | alone single =>
        exact ⟨.tail _ (.head _), head.control, by simp [control?, construct, Content.control?]⟩
      | chained cell branches =>
        exact ⟨.tail _ (.tail _ (.head _)), .chain, by simp [control?, cell, Content.control?]⟩
    · obtain ⟨id, hid, hmem, hcontrol⟩ := hcons hbs
      exact ⟨id, hid, .tail _ (.tail _ (List.mem_append_right _ hmem)), hcontrol⟩

/-- With no construct open, the root has the finished nodes as its children. -/
theorem Draws.root_eq (h : Draws cells all finished d none blocks opens) (closed : d.opened = []) :
    cells[root]? = some ⟨.control .program, finished, none, none⟩ := by
  obtain ⟨-, -, last, hcell, hnil, -⟩ := h.spine.bottom
  rw [hnil closed] at hcell
  simpa using hcell

/-- With the last child of the root, all that is open goes away. -/
theorem Draws.abandon (h : Draws cells opens finished d none blocks opens)
    (opened : d.opened ≠ []) :
    blocks.drop (blocks.length - 1) = [(root, 0)] ∧
      Draws (List.modify cells root fun c => { c with children := c.children.dropLast }) [root]
        finished d.abandon
        none [(root, 0)] [root] := by
  obtain ⟨hmem, hlast, last, hcell, -, hcons⟩ := h.spine.bottom
  obtain ⟨id, rfl, -⟩ := hcons opened
  have hroot := modify_self hcell fun c => { c with children := c.children.dropLast }
  simp only [Option.toList_some, List.dropLast_concat] at hroot
  refine ⟨?_, .base (by simpa using hroot), List.pairwise_singleton _ _,
    h.done.mono fun i c hi hc => ⟨?_, ?_⟩⟩
  · have hne : blocks ≠ [] := fun hnil => by simp [hnil] at hlast
    rw [List.getLast?_eq_some_getLast hne, Option.some.injEq] at hlast
    rw [List.drop_length_sub_one hne, hlast]
  · exact fun hi' => hi (List.mem_singleton.1 hi' ▸ hmem)
  · exact modify_of_ne hc (fun e => hi (e ▸ hmem)) _

/-- Each block continues the one below it. -/
theorem Spine.continues (h : Spine cells all finished bs inner blocks opens) :
    blocks.IsChain fun upper lower => cells.Continues lower.1 upper.1 := by
  induction h with
  | base => exact .singleton _
  | @block b bs inner top owner holder block below line blocks path opens ids gs outer site
    construct guards body
      statements ih =>
    refine .cons_cons ⟨owner, b.head.control, ?_, ?_, ?_, ?_, ?_⟩ ih
    · simp [control?, construct, Content.control?]
    · simp [body?, construct]
    · simp [control?, body, Content.control?]
    · simp [parent?, body]
    · have htop := outer.lastChild?_eq rfl
      obtain ⟨head, first, nodes⟩ := b
      cases site with
      | alone single => exact .inl ⟨htop, by simp [parent?, construct]⟩
      | chained cell branches =>
        exact .inr ⟨top, htop, by simp [parent?, cell], by simp [control?, cell, Content.control?],
          by simp [lastChild?, cell], by simp [parent?, construct]⟩

/-- What is finished can be read off the nodes. -/
theorem Under.map_read {ids : List CellId} {ns : List Node} (h : Under cells opens owner ids ns) :
    ids.map cells.read = ns := by
  have hread : List.Forall₂ (fun i n => cells.read i = n) ids ns := h.imp fun _ _ hi => hi.2.read
  rwa [← List.forall₂_map_left_iff, List.forall₂_eq_eq_eq] at hread

end Cells

end LineBasic
