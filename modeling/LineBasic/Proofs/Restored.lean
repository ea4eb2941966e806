import LineBasic.Proofs.Bodies
import LineBasic.Proofs.Images

/-!
# Restored programs

A restored tree can have any shape. Rules look for the parts that they need before they use them,
and report it if one of them is missing. There is one exception: the index of a body is used as it
is, so that a run crashes where it is not the index of a child. That is the only way to crash.

* `Control.partCount`, `Control.takesBody` : what a construct needs besides its body, and whether
  that is looked for at once.
* `Node.Refuses` : what the rule for a construct does if something is missing.
* `Node.StraysTo` : the index of the body is beyond the children.
* `Law.strays` : the law that crashes come from such nodes of the tree.
* `crash_needs_stray_body` : all runs of all trees keep to it.
-/

namespace LineBasic

/-! ### Constructs that lack something -/

/-- The parts that a construct needs before its body. -/
def Control.partCount : Control → Nat
  | branch _ => 1
  | whileLoop => 1
  | doLoop => 1
  | forLoop _ => 3
  | _ => 0

/-- A construct that looks for its body before it evaluates anything. -/
def Control.takesBody : Control → Bool
  | whileLoop => true
  | doLoop => true
  | forLoop _ => true
  | subroutine _ _ => true
  | function _ _ => true
  | _ => false

namespace Node

/-- The error where a body is missing. -/
def bodyFault (n : Node) (tag : String) : Error :=
  match n.bodyIndex with
  | none => .run (.noBody tag)
  | some i => .crash i.toNat n.children.length

/-- The index of the body is `i`, which is not below the number `count` of the children. -/
structure StraysTo (n : Node) (i count : Nat) : Prop where
  index : n.bodyIndex.map UInt64.toNat = some i
  length : n.children.length = count
  beyond : count ≤ i

theorem straysTo_of_body?_none {n : Node} {i : UInt64} (h : n.body? = none)
    (hi : n.bodyIndex = some i) :
    n.StraysTo i.toNat n.children.length := by
  refine ⟨by rw [hi]; rfl, rfl, ?_⟩
  rw [body?, hi] at h
  exact List.getElem?_eq_none_iff.1 h

theorem bodyPart_of_none {n : Node} (h : n.body? = none) (tag : String) (m : Machine) :
    n.bodyPart tag m = .failure (n.bodyFault tag) m := by
  unfold bodyPart bodyFault
  rw [h]
  cases n.bodyIndex <;> rfl

theorem part_of_le {n : Node} {i : Nat} (h : n.children.length ≤ i) (tag : String) (m : Machine) :
    n.part i tag m = .failure (.run (.malformed tag)) m := by
  unfold part
  rw [List.getElem?_eq_none h]
  rfl

theorem part_of_lt {n : Node} {i : Nat} (h : i < n.children.length) (tag : String) (m : Machine) :
    ∃ c, n.part i tag m = .value c m := by
  unfold part
  rw [List.getElem?_eq_getElem h]
  exact ⟨_, rfl⟩

end Node

section Failing

variable {α β : Type} {r : Run α} {f : α → Run β} {m m' : Machine}

theorem Run.bind_of_failure {e : Error} (h : r m = .failure e m') :
    (r >>= f) m = .failure e m' := by
  rw [bind_apply, h]

theorem Run.bind_of_value {a : α} (h : r m = .value a m') : (r >>= f) m = f a m' := by
  rw [bind_apply, h]

end Failing

/-- What the rule for a construct does if something is missing: parts are reported before anything
is evaluated. So is a body, except by a branch, which needs it when its guard is true. -/
structure Node.Refuses (n : Node) (c : Control) (ev : Evaluator) (turns : Nat) (stack : CallStack)
    (m : Machine) : Prop where
  part : n.children.length < c.partCount →
    n.evaluate ev turns stack m = .failure (.run (.malformed c.tag)) m
  body : c.takesBody = true → c.partCount ≤ n.children.length → n.body? = none →
    n.evaluate ev turns stack m = .failure (n.bodyFault c.tag) m
  branch : ∀ fallback guard rest m', c = .branch fallback → n.children = guard :: rest →
    ev.truth stack guard m = .value true m' → n.body? = none →
    n.evaluate ev turns stack m = .failure (n.bodyFault c.tag) m'

section Refuses

variable {n : Node} {c : Control} {self : Evaluator} {turns : Nat} {stack : CallStack} {m : Machine}

theorem Node.evaluate_control (hkind : n.kind = .control c) :
    n.evaluate self turns stack = c.evaluate self turns stack n := by
  simp only [evaluate, hkind]

/-- A counted loop looks for three parts, one after another. -/
theorem Loop.forLoop_of_lt {counter : String} (h : n.children.length < 3) :
    forLoop self turns stack counter n m = .failure (.run (.malformed "FOR")) m := by
  by_cases hfirst : n.children.length ≤ 0
  · exact Run.bind_of_failure (Node.part_of_le hfirst _ m)
  obtain ⟨start, hstart⟩ := Node.part_of_lt (n := n) (i := 0) (by omega) "FOR" m
  rw [forLoop, Run.bind_of_value hstart]
  by_cases hsecond : n.children.length ≤ 1
  · exact Run.bind_of_failure (Node.part_of_le hsecond _ m)
  obtain ⟨limit, hlimit⟩ := Node.part_of_lt (n := n) (i := 1) (by omega) "FOR" m
  rw [Run.bind_of_value hlimit]
  exact Run.bind_of_failure (Node.part_of_le (by omega) _ m)

theorem Loop.forLoop_of_body {counter : String} (h : 3 ≤ n.children.length)
    (hbody : n.body? = none) :
    forLoop self turns stack counter n m = .failure (n.bodyFault "FOR") m := by
  obtain ⟨start, hstart⟩ := Node.part_of_lt (n := n) (i := 0) (by omega) "FOR" m
  obtain ⟨limit, hlimit⟩ := Node.part_of_lt (n := n) (i := 1) (by omega) "FOR" m
  obtain ⟨step, hstep⟩ := Node.part_of_lt (n := n) (i := 2) (by omega) "FOR" m
  rw [forLoop, Run.bind_of_value hstart, Run.bind_of_value hlimit, Run.bind_of_value hstep]
  exact Run.bind_of_failure (Node.bodyPart_of_none hbody _ m)

/-- Every construct refuses in this way. -/
theorem Node.refuses (hkind : n.kind = .control c) : n.Refuses c self turns stack m where
  part h := by
    rw [evaluate_control hkind]
    cases c with
    | branch fallback =>
      exact Run.bind_of_failure (Run.bind_of_failure (part_of_le (Nat.le_of_lt_succ h) _ m))
    | whileLoop => exact Run.bind_of_failure (part_of_le (Nat.le_of_lt_succ h) _ m)
    | doLoop => exact Run.bind_of_failure (part_of_le (Nat.le_of_lt_succ h) _ m)
    | forLoop counter => exact Loop.forLoop_of_lt h
    | _ => exact absurd h (Nat.not_lt_zero _)
  body htakes h hbody := by
    rw [evaluate_control hkind]
    cases c with
    | whileLoop =>
      obtain ⟨guard, hguard⟩ := part_of_lt (n := n) (i := 0) h "WHILE" m
      rw [Control.evaluate, Loop.whileLoop, Run.bind_of_value hguard]
      exact Run.bind_of_failure (bodyPart_of_none hbody _ m)
    | doLoop =>
      obtain ⟨guard, hguard⟩ := part_of_lt (n := n) (i := 0) h "DO" m
      rw [Control.evaluate, Loop.doLoop, Run.bind_of_value hguard]
      exact Run.bind_of_failure (bodyPart_of_none hbody _ m)
    | forLoop counter => exact Loop.forLoop_of_body h hbody
    | subroutine name params => exact Run.bind_of_failure (bodyPart_of_none hbody _ m)
    | function name params => exact Run.bind_of_failure (bodyPart_of_none hbody _ m)
    | _ => cases htakes
  branch fallback guard rest m' hc hchildren htrue hbody := by
    subst hc
    have hguard : n.part 0 "IF" m = .value guard m := by simp [part, hchildren, Run.pure_apply]
    have hrun : Branch.run self stack n m = .failure (n.bodyFault "IF") m' := by
      rw [Branch.run, Run.bind_of_value hguard, Run.bind_of_value htrue, if_pos rfl]
      exact Run.bind_of_failure (bodyPart_of_none hbody _ m')
    rw [evaluate_control hkind]
    exact Run.bind_of_failure hrun

end Refuses

/-! ### Crashes -/

/-- The nodes of a tree, and crashes only where the body of one of them strays. -/
def Bodies.within (tree : Node) : Bodies where
  node n := ∀ d ∈ n.nodes, d ∈ tree.nodes
  body b := ∀ d ∈ b.nodes, d ∈ tree.nodes
  error e := ∀ i count, e = .crash i count → ∃ x ∈ tree.nodes, x.StraysTo i count
  child h hc := (Node.forall_nodes.1 h).2 _ hc
  reported h := by
    rintro i count rfl
    cases h
  overrun {n i} h hbody hi := by
    rintro _ _ ⟨⟩
    exact ⟨n, (Node.forall_nodes.1 h).1, Node.straysTo_of_body?_none hbody hi⟩
  defined {n b} h hbody := by
    obtain ⟨i, -, hi⟩ := Option.bind_eq_some_iff.1 hbody
    exact (Node.forall_nodes.1 h).2 b (List.mem_of_getElem? hi)

/-- The law that a crash comes from a node of the tree. -/
def Law.strays (tree : Node) : Law where
  toDomain := (Bodies.within tree).domain
  body h := h

/-- A tree of any shape, run in any world on a machine before its first program, crashes only where
a node of it has a body with an index that is not below the number of its children. Wherever a
construct lacks one of its parts this is reported, and so is a body without an index; but a body
with such an index is a crash. -/
theorem crash_needs_stray_body (tree : Node) (limit : Nat) (world : World) (disk : Disk)
    (input : Input) :
    (∀ fuel i count m,
      eval fuel (.bottom limit) tree (.fresh world disk input) = .failure (.crash i count) m →
      ∃ x ∈ tree.nodes, x.StraysTo i count) ∧
    ∀ (x : Node) (c : Control), x.kind = .control c →
      ∀ (self : Evaluator) (turns : Nat) (stack : CallStack) (m : Machine),
        x.Refuses c self turns stack m := by
  refine ⟨fun fuel i count m hcrash => ?_, fun x c hkind self turns stack m => x.refuses hkind⟩
  have hrun :=
    eval_upholds (L := Law.strays tree) fuel (.bottom limit) tree trivial (fun d hd => hd)
    (.fresh world disk input) (Machine.obeys_bodies _ world disk input)
  rw [hcrash] at hrun
  exact hrun.2 i count rfl

/-- A loop whose body should be the second of its children, of which it has one. -/
def Node.strayLoop : Node := .mk (.control .whileLoop) [.literal (.bool true)] (some 1)

/-- A program with that loop can be saved and restored, and running it is a crash, not an
error that is reported. -/
theorem restored_loop_crashes :
    Image.load (Image.save (.program [.strayLoop])) = .ok (.program [.strayLoop]) ∧
    ∀ limit world disk input, ∃ m,
      eval 2 (.bottom limit) (.program [.strayLoop]) (.fresh world disk input) =
        .failure (.crash 1 1) m := by
  have hstorable : (Node.program [.strayLoop]).Storable := by decide +kernel
  have hload := Image.load_save_append hstorable []
  rw [List.append_nil] at hload
  exact ⟨hload, fun limit world disk input => ⟨_, rfl⟩⟩

/-- The crash of that program comes from the loop. -/
theorem crash_needs_stray_body_loop :
    (∃ m, eval 2 (.bottom 256) (.program [.strayLoop]) (.fresh .still .empty (.ofOctets [])) =
      .failure (.crash 1 1) m) ∧
    (∃ x ∈ (Node.program [.strayLoop]).nodes, x.StraysTo 1 1) ∧
    ∀ self turns stack m,
      Node.strayLoop.evaluate self turns stack m =
        .failure (Node.strayLoop.bodyFault "WHILE") m := by
  obtain ⟨hcrash, hrefuses⟩ :=
    crash_needs_stray_body (.program [.strayLoop]) 256 .still .empty (.ofOctets [])
  have hrun :
      ∃ m, eval 2 (.bottom 256) (.program [.strayLoop]) (.fresh .still .empty (.ofOctets [])) =
      .failure (.crash 1 1) m := ⟨_, rfl⟩
  obtain ⟨m, hm⟩ := hrun
  refine ⟨⟨m, hm⟩, hcrash 2 1 1 m hm, fun self turns stack m' => ?_⟩
  exact (hrefuses .strayLoop .whileLoop rfl self turns stack m').body rfl (by decide) rfl

end LineBasic
