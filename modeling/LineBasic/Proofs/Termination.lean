import LineBasic.Proofs.Bodies
import LineBasic.Proofs.Cycles

/-!
# Programs without loops end

Without loops, evaluation goes on in two ways only: from a node to its children, and from a call to
the body of a function. The first makes the tree smaller and the second uses up one of the calls
that are allowed. As every body stands in the tree of the program, the number of calls times the
height of that tree bounds how deep evaluation can go, whatever functions are bound to what.

* `Node.LoopFree` : a tree without loops; `Node.height` : the number of its levels.
* `Bodies.loopFree` : trees without loops up to a height, and functions with such
  bodies; fuel must not lack.
* `eval_ends_of_loopFree` : evaluation ends within the calls that are left,
  each as high as any body.
* `loop_free_programs_end` : so a program without loops ends, as do the text and
  the comparison of arrays.
-/

namespace LineBasic

namespace Node

/-- No loop stands in the tree. -/
def LoopFree (n : Node) : Prop := ∀ d ∈ n.nodes, d.isLoop = false

instance (n : Node) : Decidable n.LoopFree :=
  inferInstanceAs (Decidable (∀ d ∈ n.nodes, d.isLoop = false))

theorem LoopFree.child {n c : Node} (h : n.LoopFree) (hc : c ∈ n.children) : c.LoopFree :=
  (forall_nodes.1 h).2 c hc

theorem LoopFree.root {n : Node} (h : n.LoopFree) : n.isLoop = false := (forall_nodes.1 h).1

mutual

/-- The number of levels of a tree. -/
def height : Node → Nat
  | mk _ cs _ => heightAll cs + 1

/-- The number of levels of the highest of some trees. -/
def heightAll : List Node → Nat
  | [] => 0
  | n :: ns => max (height n) (heightAll ns)

end

theorem height_le_heightAll {c : Node} {cs : List Node} (h : c ∈ cs) : c.height ≤ heightAll cs := by
  induction cs with
  | nil => cases h
  | cons n ns ih =>
    simp only [heightAll]
    rcases List.mem_cons.1 h with rfl | h
    · omega
    · have hle := ih h
      omega

theorem height_lt_of_child {n c : Node} (h : c ∈ n.children) : c.height < n.height := by
  cases n with
  | mk k cs b =>
    have hle : c.height ≤ heightAll cs := height_le_heightAll h
    simp only [height]
    omega

theorem height_pos (n : Node) : 0 < n.height := by
  cases n with
  | mk k cs b => simp [height]

end Node

/-! ### How deep evaluation goes -/

/-- The trees without loops that are at most `k` high, and functions with such bodies that are
at most `bound` high. -/
def Bodies.loopFree (bound k : Nat) : Bodies where
  node n := n.LoopFree ∧ n.height < k ∧ n.height ≤ bound
  rule n := n.LoopFree ∧ n.height ≤ k ∧ n.height ≤ bound
  body b := b.LoopFree ∧ b.height ≤ bound
  lack := False
  follow h := ⟨h.1, by omega, h.2.2⟩
  child h hc := by
    have hlower := Node.height_lt_of_child hc
    exact ⟨h.1.child hc, by omega, by omega⟩
  looping h hloop := by simp [h.1.root] at hloop
  defined {n b} h hbody := by
    obtain ⟨i, -, hi⟩ := Option.bind_eq_some_iff.1 hbody
    have hlower := Node.height_lt_of_child (List.mem_of_getElem? hi)
    exact ⟨h.1.child (List.mem_of_getElem? hi), by omega⟩

/-- The calls that can still be made inside each other. -/
def CallStack.room (s : CallStack) : Nat := s.limit + 1 - s.frames.length

theorem CallStack.room_push {s : CallStack} (h : s.isFull = false) (c : Chain) :
    (s.push c).room + 1 = s.room := by
  simp only [isFull, decide_eq_false_iff_not] at h
  simp only [room, push, List.length_cons]
  omega

@[simp] theorem CallStack.room_hold (s : CallStack) (vs : List Value) :
    (s.hold vs).room = s.room := rfl

/-- Evaluation ends if there is fuel for the levels of the tree and, for each call that can still be
made, for those of a body. -/
theorem eval_ends_of_loopFree {bound fuel : Nat} {stack : CallStack} {n : Node} (free : n.LoopFree)
    (low : n.height ≤ bound) (enough : stack.room * bound + n.height ≤ fuel) :
    (eval fuel stack n).Upholds (Bodies.loopFree bound bound).domain.guard
      (Bodies.loopFree bound bound).domain.flow := by
  induction fuel generalizing stack n with
  | zero =>
    have hpos := n.height_pos
    omega
  | succ fuel ih =>
    have hrule : (Bodies.loopFree bound n.height).domain.rule n := ⟨free, Nat.le_refl _, low⟩
    rw [eval_succ, ← (Planned.evaluate fuel n).runs]
    refine (Planned.evaluate_keeps hrule fuel).run trivial (fun held c hc => ?_)
      fun held c hc hroom id _ => ?_
    · -- a part is lower than the node
      obtain ⟨hfree, hlower, hlow⟩ := hc
      exact ih hfree hlow (by rw [CallStack.room_hold]; omega)
    · -- a call takes a body in exchange for one of the calls that are left
      obtain ⟨hfree, hlow⟩ := hc
      have hleft := CallStack.room_push (s := stack.hold held) hroom (id :: c.scope)
      have hspent :
          stack.room * bound = ((stack.hold held).push (id :: c.scope)).room * bound + bound := by
        rw [← CallStack.room_hold, ← hleft, Nat.succ_mul]
      have hpos := n.height_pos
      exact ih hfree hlow (by omega)

/-- A program without loops ends, with a value or with an error: on every machine before its first
program, in every world, with all files and all input, and whatever number of calls is allowed.
Neither functions that call themselves or each other without end make a difference, nor do arrays
that contain themselves: with any sequences stored, the text of an array and the comparison of two
arrays have finitely many steps. -/
theorem loop_free_programs_end {program : Node} (free : program.LoopFree) (limit : Nat)
    (world : World) (disk : Disk) (input : Input) :
    (∀ fuel, (limit + 1) * program.height ≤ fuel →
      (∃ f m, eval fuel (.bottom limit) program (.fresh world disk input) = .value f m) ∨
      ∃ e m, eval fuel (.bottom limit) program (.fresh world disk input) = .failure e m) ∧
    (∀ (h : Heap) (a : SequenceId), h.Shows [] a (Value.display h (.array a))) ∧
    ∀ (h : Heap) (a b : SequenceId), h.Compares [] a b (Value.equals h (.array a) (.array b)) := by
  refine ⟨fun fuel hfuel => ?_, fun h a => h.shows_display a, fun h a b => h.compares_equals a b⟩
  have hroom : (CallStack.bottom limit).room = limit := by simp [CallStack.room, CallStack.bottom]
  have henough : (CallStack.bottom limit).room * program.height + program.height ≤ fuel := by
    rwa [hroom, ← Nat.succ_mul]
  have hrun := eval_ends_of_loopFree free (Nat.le_refl _) henough (.fresh world disk input)
    (Machine.obeys_bodies _ world disk input)
  cases hend : eval fuel (.bottom limit) program (.fresh world disk input) with
  | value f m => exact .inl ⟨f, m, rfl⟩
  | failure e m => exact .inr ⟨e, m, rfl⟩
  | exhausted =>
    rw [hend] at hrun
    exact hrun.elim

/-- Two arrays that contain themselves are joined to a text and compared, and then a
function calls itself without end. With two calls allowed inside each other the program
ends, after it has printed both. -/
theorem loop_free_programs_end_runaway :
    let source := "B = \x7b1\x7d\nB(1) = B\nC = \x7bB\x7d\nC(1) = C\nPRINT \"x\" + B, B = C\n" ++
      "FUNCTION F(X)\nRETURN F(X)\nEND FUNCTION\nPRINT F(B)"
    let start : Machine := .fresh .still .empty (.ofOctets [])
    ∃ tree, Reader.program? [] [source] = some tree ∧ tree.LoopFree ∧ 3 * tree.height = 18 ∧
      (eval 18 (.bottom 2) tree start).machine?.map Machine.output =
        some "x\x7b\x7b...\x7d\x7d\nTrue\n" ∧
      ∀ fuel, 18 ≤ fuel → (∃ f m, eval fuel (.bottom 2) tree start = .value f m) ∨
        ∃ e m, eval fuel (.bottom 2) tree start = .failure e m := by
  intro source start
  have hrun : (Reader.program? [] [source]).any (fun tree => tree.LoopFree ∧ 3 * tree.height = 18 ∧
      (eval 18 (.bottom 2) tree start).machine?.map Machine.output =
        some "x\x7b\x7b...\x7d\x7d\nTrue\n") = true := by
    decide +kernel
  obtain ⟨tree, read, hrun⟩ := (Option.any_eq_true ..).1 hrun
  obtain ⟨free, hheight, houtput⟩ := of_decide_eq_true hrun
  refine ⟨tree, read, free, hheight, houtput, fun fuel hfuel => ?_⟩
  exact (loop_free_programs_end free 2 .still .empty (.ofOctets [])).1 fuel (by omega)

end LineBasic
