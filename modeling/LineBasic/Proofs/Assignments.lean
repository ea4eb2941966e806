import LineBasic.Proofs.Enclosing

/-!
# What an assignment is followed by

A plain assignment looks at two scopes of a chain only, the innermost and the outermost one. A name
is looked up in all of them. So the value that was assigned is found, unless a scope in between has
a variable of that name: then the assignment has gone to the variable of the outermost scope, and
the one in between is found, with the value that it had.

* `Scopes.Veiled` : the variable that an assignment goes to is not the one that is found.
* `Scopes.find?_define_of_owner` : how a binding in one scope changes what is found along a chain.
* `Scopes.find?_assign`, `Scopes.find?_assign_veiled` : what is found after an assignment.
* `Moment.InOrder` : the machine and the calls at a moment are those of a situation.
  `Moment.InOrder.visits` : so they are at all moments of a run.
* `Moment.InOrder.innermost_stored` : a call still has its scope when a part of its
  body has been evaluated.
* `assigned_value_read_unless_veiled` : what is read after an assignment, in chains and in runs.
-/

namespace LineBasic
namespace Scopes

variable {s : Scopes} {c : Chain} {id i : ScopeId} {x y key : String} {v : Value}

theorem local?_define_self (stored : id < s.size) :
    (s.define id x v).local? id (Text.upperCase x) = some v := by
  unfold define local?
  rw [Array.getElem?_modify, if_pos rfl, Array.getElem?_eq_getElem stored]
  exact Bindings.find?_insert_self ..

theorem local?_define_other (h : i ≠ id) : (s.define id x v).local? i key = s.local? i key := by
  unfold define local?
  rw [Array.getElem?_modify, if_neg (Ne.symm h)]

/-- A scope that binds something is there. -/
theorem lt_size_of_binds (h : s.binds id key = true) : id < s.size := by
  by_contra hout
  have hnone : s[id]? = none := Array.getElem?_eq_none (Nat.not_lt.1 hout)
  simp [binds, local?, hnone] at h

/-- ASCII case does not count. -/
theorem find?_spelling (h : Text.upperCase y = Text.upperCase x) (s : Scopes) (c : Chain) :
    s.find? c y = s.find? c x := by
  unfold find?
  rw [h]

theorem binds_of_owner (h : s.owner? c x = some id) : s.binds id (Text.upperCase x) = true :=
  List.find?_some (p := fun i => s.binds i (Text.upperCase x)) h

/-- The innermost scope that binds a name is where it is found. -/
theorem find?_eq_local?_owner {o : ScopeId} (h : s.owner? c x = some o) :
    s.find? c x = s.local? o (Text.upperCase x) := by
  obtain ⟨hbinds, before, after, rfl, hbefore⟩ := List.find?_eq_some_iff_append.1 h
  have hnone : before.findSome? (fun i => s.local? i (Text.upperCase x)) = none := by
    refine List.findSome?_eq_none_iff.2 fun i hi => ?_
    simpa [binds] using hbefore i hi
  obtain ⟨w, hw⟩ := Option.isSome_iff_exists.1 hbinds
  rw [find?, List.findSome?_append, hnone, Option.none_or, List.findSome?_cons, hw]

/-- A binding takes the place of one in the same scope. It is found if that was the one that was
found, and otherwise what is found is the same as before. -/
theorem find?_define_of_owner {o : ScopeId} (h : s.owner? c x = some o)
    (bound : s.binds id (Text.upperCase x) = true) (v : Value) :
    (s.define id x v).find? c x = if o = id then some v else s.find? c x := by
  have hself := local?_define_self (x := x) (v := v) (lt_size_of_binds bound)
  -- the scopes that bind the name are the same as before, so the first of them is, too
  have hbinds :
      ∀ i, (s.define id x v).binds i (Text.upperCase x) = s.binds i (Text.upperCase x) := by
    intro i
    by_cases hi : i = id
    · rw [hi, bound, binds, hself]
      rfl
    · rw [binds, local?_define_other hi, binds]
  have howner : (s.define id x v).owner? c x = some o := by
    rw [← h]
    simp only [owner?, hbinds]
  rw [find?_eq_local?_owner howner]
  split
  · next ho => rw [ho, hself]
  · next ho => rw [local?_define_other ho, find?_eq_local?_owner h]

theorem find?_define_innermost (inside : c ≠ []) (stored : innermost c < s.size) :
    (s.define (innermost c) x v).find? c x = some v := by
  cases c with
  | nil => exact absurd rfl inside
  | cons id c =>
    have hself : (s.define id x v).local? id (Text.upperCase x) = some v :=
      local?_define_self stored
    show List.findSome? (fun i => (s.define id x v).local? i (Text.upperCase x)) (id :: c) = some v
    rw [List.findSome?_cons, hself]

theorem outermost_mem (inside : c ≠ []) : outermost c ∈ c := by
  rw [outermost, List.getLastD_eq_getLast?, List.getLast?_eq_some_getLast inside]
  exact List.getLast_mem inside

/-- The outermost scope binds the name, and so does a scope that is neither the outermost nor
the innermost one and comes before the outermost one when the name is looked up. The innermost
one does not bind it. -/
def Veiled (s : Scopes) (c : Chain) (x : String) : Prop :=
  s.binds (outermost c) (Text.upperCase x) = true ∧
    ∃ id, s.owner? c x = some id ∧ id ≠ innermost c ∧ id ≠ outermost c

theorem Veiled.not_innermost (h : s.Veiled c x) :
    s.binds (innermost c) (Text.upperCase x) = false := by
  obtain ⟨-, id, howner, hinner, -⟩ := h
  cases c with
  | nil => cases howner
  | cons i c =>
    by_contra hbinds
    rw [Bool.not_eq_false] at hbinds
    have hfirst : s.owner? (i :: c) x = some i := List.find?_cons_of_pos hbinds
    exact hinner (Option.some.inj (howner.symm.trans hfirst))

/-- The value that was assigned is found, if the name is not veiled. -/
theorem find?_assign (inside : c ≠ []) (stored : innermost c < s.size) (h : ¬ s.Veiled c x) :
    (s.assign c x v).find? c x = some v := by
  unfold assign
  split
  · next hguard =>
    simp only [Bool.and_eq_true, Bool.not_eq_true'] at hguard
    obtain ⟨hinner, houter⟩ := hguard
    have hsome : (s.owner? c x).isSome = true :=
      List.find?_isSome.2 ⟨outermost c, outermost_mem inside, houter⟩
    obtain ⟨o, howner⟩ := Option.isSome_iff_exists.1 hsome
    rw [find?_define_of_owner howner houter]
    refine if_pos (by_contra fun ho => h ⟨houter, o, howner, fun heq => ?_, ho⟩)
    have hbinds := binds_of_owner howner
    simp [heq, hinner] at hbinds
  · exact find?_define_innermost inside stored

/-- If it is veiled, what is found is the same as before. -/
theorem find?_assign_veiled (h : s.Veiled c x) : (s.assign c x v).find? c x = s.find? c x := by
  obtain ⟨houter, id, howner, -, hne⟩ := id h
  rw [assign, h.not_innermost, houter]
  exact (find?_define_of_owner howner houter v).trans (if_neg hne)

theorem Veiled.find?_isSome (h : s.Veiled c x) : ∃ w, s.find? c x = some w := by
  obtain ⟨-, id, howner, -⟩ := h
  rw [find?_eq_local?_owner howner]
  exact Option.isSome_iff_exists.1 (binds_of_owner howner)

end Scopes

/-! ### Moments with scopes inside each other -/

/-- The machine and the calls under way are those of a situation in which scopes are linked. -/
def Moment.InOrder (limit : Nat) (x : Moment) : Prop :=
  ∃ (t : Trace) (held : List Value),
    t.InOrder ∧ x.stack = t.now.stack limit held ∧ x.machine = t.now.machine

theorem Situation.machine?_outcome {α : Type} {s : Situation} {e : Option (Except Error α)}
    {m : Machine} (h : (s.outcome e).machine? = some m) : s.machine = m := by
  rcases e with _ | e | a <;> cases h <;> rfl

namespace Moment.InOrder

variable {limit : Nat} {x p q : Moment}

/-- Where scopes are linked, a rule asks for nothing else. -/
theorem asks (hp : p.InOrder limit) (h : p.Asks q) : q.InOrder limit := by
  obtain ⟨t, held, ht, hstack, hmachine⟩ := hp
  -- otherwise evaluation with links would never see the answer at `q`, and
  -- still end as the rule does
  by_contra hother
  have hself (o : Outcome Flow) :
      Linked.MirrorsAll limit (Linked.eval limit q.fuel) ((eval q.fuel).answering q o) := by
    intro t' ht' held' n
    obtain ⟨hleads, hend, hresult⟩ := Linked.mirrorsAll_eval limit q.fuel t' ht' held' n
    refine ⟨hleads, hend.trans (Eq.symm (if_neg ?_)), hresult⟩
    rintro ⟨hstack', -, hmachine'⟩
    exact hother ⟨t', held', ht', hstack'.symm, hmachine'.symm⟩
  have hend (o : Outcome Flow) :=
    (Plan.mirrors_linked (hself o) held _ ht fun l _ =>
      Planned.evaluate_keeps trivial (n := p.node) q.fuel).outcome
  refine not_forall_failure (m := q.machine) fun e => (hend (.failure e q.machine)).trans ?_
  rw [(Planned.evaluate q.fuel p.node).runs, ← hstack, ← hmachine]
  exact h.2 e

theorem visits (hp : p.InOrder limit) (h : p.Visits q) : q.InOrder limit := by
  induction h with
  | refl => exact hp
  | tail _ hask ih => exact ih.asks hask

/-- When a part of its body has been evaluated, a call still has its scope. -/
theorem innermost_stored (hx : x.InOrder limit) {fuel : Nat} {n : Node} {m : Machine}
    (h : (eval fuel x.stack n x.machine).machine? = some m) :
    x.stack.chain ≠ [] ∧ Scopes.innermost x.stack.chain < m.scopes.size := by
  obtain ⟨t, held, ht, hstack, hmachine⟩ := hx
  obtain ⟨hleads, hend, -⟩ := Linked.mirrorsAll_eval limit fuel t ht held n
  rw [hstack, hmachine, ← hend] at h
  rw [hstack, ht.now.chain_stack, ← Situation.machine?_outcome h, ← hleads.inOrder.now.complete]
  have hpath := ht.now.rooted.path_chain ht.now.current_lt
  exact ⟨hpath.ne_nil,
    Nat.lt_of_lt_of_le (ht.now.rooted.chain_innermost hpath).2 hleads.grown.length_le⟩

end Moment.InOrder

/-- Before the first call there is the global scope only, whatever was executed before. -/
theorem Machine.Executed.inOrder {limit : Nat} {units : List Node} {m : Machine}
    (h : m.Executed limit units) :
    ∃ t : Trace, t.InOrder ∧ t.now.frames = [Scopes.global] ∧ t.now.machine = m := by
  have hstep {fuel : Nat} {n : Node} {m m' : Machine}
      (ih : ∃ t : Trace, t.InOrder ∧ t.now.frames = [Scopes.global] ∧ t.now.machine = m)
      (hm : (eval fuel (.bottom limit) n m).machine? = some m') :
      ∃ t : Trace, t.InOrder ∧ t.now.frames = [Scopes.global] ∧ t.now.machine = m' := by
    obtain ⟨t, ht, hframes, rfl⟩ := ih
    obtain ⟨hleads, hend, -⟩ := Linked.mirrorsAll_eval limit fuel t ht [] n
    rw [ht.now.stack_bottom hframes] at hend
    rw [← hend] at hm
    exact ⟨_, hleads.inOrder, hleads.frames.trans hframes, Situation.machine?_outcome hm⟩
  induction h with
  | fresh world disk input => exact ⟨_, Trace.inOrder_fresh world disk input, rfl, rfl⟩
  | value _ _ hrun ih => exact hstep ih (by rw [hrun]; rfl)
  | failure _ _ hrun ih => exact hstep ih (by rw [hrun]; rfl)

theorem Moment.Starts.inOrder {tree : Node} {limit : Nat} {start : Moment}
    (h : start.Starts tree limit) :
    start.InOrder limit := by
  obtain ⟨t, ht, hframes, hmachine⟩ := h.machine.inOrder
  exact ⟨t, [], ht, h.stack.trans (ht.now.stack_bottom hframes limit).symm, hmachine.symm⟩

/-! ### Assignments in runs -/

/-- The value of an expression is there on the machine that its evaluation leaves. -/
theorem Evaluator.machine?_value (self : Evaluator) (stack : CallStack) (n : Node) (m : Machine) :
    (self.value stack n m).machine? = (self stack n m).machine? := by
  unfold value
  rw [Run.bind_apply]
  cases self stack n m <;> rfl

/-- Reading a name is looking it up. -/
theorem eval_ofName {stack : CallStack} {x : String} {m : Machine} {v : Value}
    (h : m.scopes.find? stack.chain x = some v) (fuel : Nat) :
    eval (fuel + 1) stack (.ofName x) m = .value (.value v) m := by
  show (Run.lookup stack.chain x >>= fun v => pure (Flow.value v)) m = _
  rw [Run.bind_apply, Run.lookup_of_find? h]
  rfl

/-- An assignment to a name evaluates the expression and assigns its value. -/
theorem Node.evaluate_assign {self : Evaluator} {stack : CallStack} {x : String} {e : Node}
    {v : Value} {m m' : Machine} (bound : m.scopes.OperatorsBound)
    (inside : Scopes.global ∈ stack.chain) (h : self.value stack e m = .value v m') (turns : Nat) :
    (Node.operation .assign [.ofName x, e]).evaluate self turns stack m =
      .value .done { m' with scopes := m'.scopes.assign stack.chain x v } := by
  have hkind : (Node.operation .assign [.ofName x, e]).kind = .call Operator.assign.name := rfl
  rw [Node.evaluate_operator bound inside hkind]
  show (Operation.assign self stack (.ofName x) e >>= fun v => pure (Flow.value v)) m = _
  have hassign : Operation.assign self stack (.ofName x) e m =
      .value .nothing { m' with scopes := m'.scopes.assign stack.chain x v } := by
    show (self.value stack e >>= fun v => _) m = _
    rw [Run.bind_apply, h]
    rfl
  rw [Run.bind_apply, hassign]
  rfl

/-- After an assignment to a name, in a chain of any scopes that binds any names, the value is found
under all spellings of the name, unless the name is veiled; if it is, what is found is what was
found before. So it is in all runs of programs: wherever an assignment stands, as soon as its
expression has a value the assignment ends, and reading the name in the same call gives that value,
or the old one if the name is veiled. -/
theorem assigned_value_read_unless_veiled {x y : String}
    (spelled : Text.upperCase y = Text.upperCase x) (v : Value) :
    (∀ (s : Scopes) (c : Chain), c ≠ [] → Scopes.innermost c < s.size →
      (¬ s.Veiled c x → (s.assign c x v).find? c y = some v) ∧
      (s.Veiled c x → (s.assign c x v).find? c y = s.find? c y)) ∧
    ∀ {catalog : Catalog} {pieces : List String} {tree : Node} {limit : Nat}
      {start p : Moment} {e : Node}
      {m : Machine}, Reader.program? catalog pieces = some tree → start.Starts tree limit →
      start.Visits p →
      p.node = .operation .assign [.ofName x, e] →
      (eval (p.fuel - 1)).value p.stack e p.machine = .value v m →
      ∃ m', p.outcome = .value .done m' ∧
        (¬ m.scopes.Veiled p.stack.chain x →
          ∀ fuel, eval (fuel + 1) p.stack (.ofName y) m' = .value (.value v) m') ∧
        (m.scopes.Veiled p.stack.chain x → ∃ w, ∀ fuel,
          eval (fuel + 1) p.stack (.ofName y) m = .value (.value w) m ∧
          eval (fuel + 1) p.stack (.ofName y) m' = .value (.value w) m') := by
  constructor
  · intro s c inside stored
    simp only [Scopes.find?_spelling spelled]
    exact ⟨Scopes.find?_assign inside stored, Scopes.find?_assign_veiled⟩
  · intro catalog pieces tree limit start p e m read starts visits hnode hvalue
    have hlawful : p.Lawful Law.operators :=
      (starts.lawful Machine.obeys_fresh (Reader.program?_worded read)).visits visits
    have hpart : (eval (p.fuel - 1) p.stack e p.machine).machine? = some m := by
      rw [← Evaluator.machine?_value, hvalue]
      rfl
    obtain ⟨inside, stored⟩ := (starts.inOrder.visits visits).innermost_stored hpart
    refine ⟨{ m with scopes := m.scopes.assign p.stack.chain x v }, ?_, fun h fuel =>
      ?_, fun h => ?_⟩
    · obtain ⟨fuel, stack, n, m₀⟩ := p
      cases fuel with
      | zero => cases hvalue
      | succ fuel =>
        rw [Moment.outcome, hnode]
        exact Node.evaluate_assign hlawful.machine.scopes.operators hlawful.chain hvalue fuel
    · refine eval_ofName ?_ fuel
      rw [Scopes.find?_spelling spelled]
      exact Scopes.find?_assign inside stored h
    · obtain ⟨w, hw⟩ := h.find?_isSome
      refine ⟨w, fun fuel => ⟨eval_ofName ?_ fuel, eval_ofName ?_ fuel⟩⟩
      · rw [Scopes.find?_spelling spelled, hw]
      · rw [Scopes.find?_spelling spelled]
        exact (Scopes.find?_assign_veiled h).trans hw

/-- In a chain of three scopes, with and without a variable in the middle one, and at the first
statement of a program, after which the name is read in another spelling. -/
theorem assigned_value_read_unless_veiled_chains :
    let outer : Bindings := ⟨[("X", .int 0)]⟩
    let middle : Bindings := ⟨[("X", .int 1)]⟩
    let veiled : Scopes := #[outer, middle, .empty]
    let unveiled : Scopes := #[outer, .empty, .empty]
    (veiled.assign [2, 1, 0] "X" (.int 5)).find? [2, 1, 0] "x" = some (.int 1) ∧
    (unveiled.assign [2, 1, 0] "X" (.int 5)).find? [2, 1, 0] "x" = some (.int 5) ∧
    ∃ (tree n : Node) (m : Machine), Reader.program? [] ["X = 5"] = some tree ∧
      n ∈ tree.children ∧
        eval 2 (.bottom 256) n (.fresh .still .empty (.ofOctets [])) = .value .done m ∧
      eval 1 (.bottom 256) (.ofName "x") m = .value (.value (.int 5)) m := by
  intro outer middle veiled unveiled
  have spelled : Text.upperCase "x" = Text.upperCase "X" := by decide
  obtain ⟨hchains, hruns⟩ := assigned_value_read_unless_veiled spelled (.int 5)
  have hveiled := (hchains veiled [2, 1, 0] (by simp) (by decide)).2
    ⟨by decide, 1, by decide, by decide, by decide⟩
  have hunveiled := (hchains unveiled [2, 1, 0] (by simp) (by decide)).1
    fun ⟨_, id, howner, _, hne⟩ => hne (Option.some.inj (howner.symm.trans (by decide)))
  refine ⟨hveiled, hunveiled, ?_⟩
  let stack : CallStack := .bottom 256
  let first : Node := .operation .assign [.ofName "X", .literal (.int 5)]
  have read : Reader.program? [] ["X = 5"] = some (.program [first]) := by
    with_unfolding_all rfl
  -- what the machine is does not matter to the value of a literal, nor to a chain of one scope
  have hvalue (m : Machine) : (eval 1).value stack (.literal (.int 5)) m = .value (.int 5) m := rfl
  generalize hfresh : Machine.fresh .still .empty (.ofOctets []) = fresh
  have starts : Moment.Starts (.program [first]) 256 ⟨2, stack, first, fresh⟩ :=
    ⟨rfl, .tail _ (.head _), hfresh ▸ .fresh .still .empty (.ofOctets [])⟩
  obtain ⟨m, hends, hreads, -⟩ := hruns read starts .refl rfl (hvalue fresh)
  refine ⟨.program [first], first, m, read, .head _, hends,
    hreads (fun ⟨_, id, howner, _, hne⟩ => ?_) 0⟩
  exact hne (List.mem_singleton.1 (List.mem_of_find?_eq_some howner))

/-- A name that is a global variable and a parameter of a function around the one that assigns to
it. There the value that was assigned is not what is read next: the assignment goes to the global
variable, and what is read is the parameter, which the program prints. -/
theorem veiled_assignment_unread :
    let source := "X = 0\nFUNCTION OUTER(X)\nFUNCTION INNER()\nX = 5\nRETURN X\nEND FUNCTION\n" ++
      "RETURN INNER()\nEND FUNCTION\nPRINT OUTER(1)"
    let s : Scopes := #[⟨[("X", .int 0)]⟩, ⟨[("X", .int 1)]⟩, .empty]
    (s.assign [2, 1, 0] "X" (.int 5)).find? [2, 1, 0] "X" ≠ some (.int 5) ∧
    ∃ (tree : Node) (m : Machine), Reader.program? [] [source] = some tree ∧
      (eval 30 (.bottom 256) tree (.fresh .still .empty (.ofOctets []))).machine? = some m ∧
        m.output = "1\n" ∧
      (m.global? "X").map (fun v => v.display m.heap) = some "5" := by
  intro source s
  have hfind : (s.assign [2, 1, 0] "X" (.int 5)).find? [2, 1, 0] "X" = some (.int 1) := rfl
  refine ⟨by rw [hfind]; nofun, ?_⟩
  have hrun : (Reader.program? [] [source]).any (fun tree =>
      (eval 30 (.bottom 256) tree (.fresh .still .empty (.ofOctets []))).machine?.any fun m =>
        m.output = "1\n" ∧ (m.global? "X").map (fun v => v.display m.heap) = some "5") = true := by
    decide +kernel
  simp only [Option.any_eq_true, decide_eq_true_eq] at hrun
  obtain ⟨tree, read, m, hends, houtput, hglobal⟩ := hrun
  exact ⟨tree, m, read, hends, houtput, hglobal⟩

end LineBasic
