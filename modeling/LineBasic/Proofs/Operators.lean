import LineBasic.Proofs.Laws

/-!
# Operators cannot be shadowed

An operator is called by a name that is looked up like any other. What keeps it safe is
its spelling: the names that a program can bind are words, and the names of operators are
not. So whatever a program binds, those names stay bound in the global scope, to the
operators, and in no other scope.

* `Scopes.Hold` : all that is bound has a property.
* `Scopes.OperatorsBound` : where the names of operators are bound, and to what.
* `Law.operators` : evaluation keeps that, as long as functions bind words and see the global scope.
* `operators_not_shadowed` : so it is in all states of a run, and calls of operators run them.
-/

namespace LineBasic

/-! ### Bindings of a scope -/

theorem Bindings.find?_insert (b : Bindings) (name key : String) (v : Value) :
    (b.insert name v).find? key = if key = name then some v else b.find? key := by
  split
  · next h => rw [h, find?_insert_self]
  · next h => exact find?_insert_of_ne b v h

/-- A call binds its parameters, to its arguments. -/
theorem Bindings.find?_ofArguments {params : List String} {args : List Value} {key : String}
    {v : Value} (h : (ofArguments params args).find? key = some v) :
    v ∈ args ∧ ∃ x ∈ params, key = Text.upperCase x := by
  have hstep (ps : List (String × Value)) : ∀ b : Bindings,
      (ps.foldl (fun b p => b.insert (Text.upperCase p.1) p.2) b).find? key = some v →
      b.find? key = some v ∨ ∃ p ∈ ps, v = p.2 ∧ key = Text.upperCase p.1 := by
    induction ps with
    | nil => exact fun b hb => .inl hb
    | cons p ps ih =>
      intro b hb
      rcases ih _ hb with hfirst | ⟨p', hp', heq⟩
      · rw [find?_insert] at hfirst
        split at hfirst
        · next hkey =>
          cases hfirst
          exact .inr ⟨p, by simp, rfl, hkey⟩
        · exact .inl hfirst
      · exact .inr ⟨p', by simp [hp'], heq⟩
  rcases hstep _ _ h with hnone | ⟨p, hp, rfl, hkey⟩
  · cases hnone
  · exact ⟨(List.of_mem_zip hp).2, p.1, (List.of_mem_zip hp).1, hkey⟩

namespace Scopes

variable {s : Scopes} {key : String}

/-- Binding a name leaves all other names as they are, in all scopes. -/
theorem local?_define_of_ne {x : String} (h : key ≠ Text.upperCase x) (id : ScopeId) (v : Value)
    (i : ScopeId) : (s.define id x v).local? i key = s.local? i key := by
  unfold define local?
  rw [Array.getElem?_modify]
  split
  · cases s[i]? with
    | none => rfl
    | some b => exact Bindings.find?_insert_of_ne b v h
  · rfl

/-- What is bound after a binding is the new value, or was bound before. -/
theorem local?_of_define {id i : ScopeId} {x : String} {v w : Value}
    (h : (s.define id x v).local? i key = some w) : w = v ∨ s.local? i key = some w := by
  by_cases hkey : key = Text.upperCase x
  · unfold define local? at h
    rw [Array.getElem?_modify] at h
    split at h
    · obtain ⟨b, hb, hw⟩ := Option.bind_eq_some_iff.1 h
      obtain ⟨b', -, rfl⟩ := Option.map_eq_some_iff.1 hb
      rw [Bindings.find?_insert, if_pos hkey] at hw
      cases hw
      exact .inl rfl
    · exact .inr h
  · rw [local?_define_of_ne hkey] at h
    exact .inr h

theorem local?_push (b : Bindings) (i : ScopeId) :
    local? (s.push b) i key = if i = s.size then b.find? key else s.local? i key := by
  unfold local?
  rw [Array.getElem?_push]
  split <;> rfl

/-- All values that are bound in some scope have the property. -/
def Hold (V : Value → Prop) (s : Scopes) : Prop := ∀ {id key v}, s.local? id key = some v → V v

section Hold

variable {V : Value → Prop} {x : String} {v : Value}

theorem Hold.define (h : s.Hold V) (hv : V v) (id : ScopeId) (x : String) :
    (s.define id x v).Hold V := by
  intro i key w hw
  rcases local?_of_define hw with rfl | hw
  · exact hv
  · exact h hw

theorem Hold.assign (h : s.Hold V) (hv : V v) (c : Chain) (x : String) :
    (s.assign c x v).Hold V := by
  unfold Scopes.assign
  split
  · exact h.define hv _ x
  · exact h.define hv _ x

theorem Hold.push (h : s.Hold V) (params : List String) {args : List Value}
    (hargs : ∀ v ∈ args, V v) :
    Hold V (s.push (.ofArguments params args)) := by
  intro i key w hw
  rw [local?_push] at hw
  split at hw
  · exact hargs _ (Bindings.find?_ofArguments hw).1
  · exact h hw

end Hold

theorem exists_local?_of_find? {c : Chain} {x : String} {v : Value} (h : s.find? c x = some v) :
    ∃ id, s.local? id (Text.upperCase x) = some v := by
  obtain ⟨id, -, hid⟩ := List.exists_of_findSome?_eq_some h
  exact ⟨id, hid⟩

theorem Hold.found {V : Value → Prop} (h : s.Hold V) {c : Chain} {x : String} {v : Value}
    (hv : s.find? c x = some v) : V v :=
  h (exists_local?_of_find? hv).choose_spec

/-! ### Operators in scopes -/

/-- The name of each operator is bound in the global scope, to what it was bound to at the start,
and in no other scope. -/
def OperatorsBound (s : Scopes) : Prop :=
  ∀ (op : Operator) (id : ScopeId) (v : Value),
    s.local? id op.name = some v ↔ id = global ∧ v = .builtin (.operator op) 0

end Scopes

namespace Scopes.OperatorsBound

variable {s : Scopes}

/-- An operator is found from every scope inside the global one. -/
theorem find? (h : s.OperatorsBound) {c : Chain} (hc : global ∈ c) (op : Operator) :
    s.find? c op.name = some (.builtin (.operator op) 0) := by
  -- the global scope is in the chain, so something is found, and nothing but the operator can be
  have hglobal : s.local? global op.name = some (.builtin (.operator op) 0) :=
    (h op _ _).2 ⟨rfl, rfl⟩
  have hsome : (s.find? c op.name).isSome = true := by
    refine List.findSome?_isSome_iff.2 ⟨global, hc, ?_⟩
    rw [op.upperCase_name, hglobal]
    rfl
  obtain ⟨v, hv⟩ := Option.isSome_iff_exists.1 hsome
  obtain ⟨id, hid⟩ := exists_local?_of_find? hv
  rw [op.upperCase_name] at hid
  rw [hv, ((h op id v).1 hid).2]

/-- Only a name that is no word can take the place of an operator. -/
theorem define (h : s.OperatorsBound) {x : String} (word : Text.isWord x = true) (id : ScopeId)
    (v : Value) :
    (s.define id x v).OperatorsBound := by
  intro op i w
  rw [local?_define_of_ne (Operator.name_ne_of_isWord (Text.isWord_upperCase word) op)]
  exact h op i w

theorem push (h : s.OperatorsBound) {params : List String}
    (words : ∀ x ∈ params, Text.isWord x = true) (args : List Value) :
    OperatorsBound (s.push (.ofArguments params args)) := by
  intro op i w
  -- the new scope binds parameters, and no parameter has the name of an operator
  have hnew : (Bindings.ofArguments params args).find? op.name = none := by
    by_contra hsome
    obtain ⟨v, hv⟩ := Option.ne_none_iff_exists'.1 hsome
    obtain ⟨-, x, hx, hkey⟩ := Bindings.find?_ofArguments hv
    exact Operator.name_ne_of_isWord (Text.isWord_upperCase (words x hx)) op hkey
  rw [local?_push, ← h op i w]
  split
  · next hi =>
    have hfree : s.local? s.size op.name = none := by simp [local?]
    rw [hnew, hi, hfree]
  · rfl

end Scopes.OperatorsBound

/-! ### The law of operators -/

/-- A function of the program binds words only, and is inside the global scope. Nothing is asked of
other values: what matters is what the names of operators are bound to, not what else is. -/
def Value.Orderly : Value → Prop
  | .closure c => (∀ x ∈ c.params, Text.isWord x = true) ∧ c.body.Worded ∧ Scopes.global ∈ c.scope
  | _ => True

/-- Operators are in their place, and so are the functions that can call them. -/
structure Scopes.Orderly (s : Scopes) : Prop where
  operators : s.OperatorsBound
  values : ∀ {id key v}, s.local? id key = some v → v.Orderly

namespace Scopes.Orderly

variable {s : Scopes} {x : String} {v : Value}

theorem define (hs : s.Orderly) (word : Text.isWord x = true) (hv : v.Orderly) (id : ScopeId) :
    (s.define id x v).Orderly :=
  ⟨hs.operators.define word id v, Hold.define hs.values hv id x⟩

theorem assign (hs : s.Orderly) (word : Text.isWord x = true) (hv : v.Orderly) (c : Chain) :
    (s.assign c x v).Orderly := by
  unfold Scopes.assign
  split
  · exact hs.define word hv _
  · exact hs.define word hv _

theorem push (hs : s.Orderly) {params : List String} {args : List Value}
    (words : ∀ x ∈ params, Text.isWord x = true) (hargs : ∀ v ∈ args, v.Orderly) :
    Orderly (s.push (.ofArguments params args)) :=
  ⟨hs.operators.push words args, Hold.push hs.values params hargs⟩

end Scopes.Orderly

theorem Node.Worded.word_of_name? {n : Node} (h : n.Worded) {x : String} (hx : n.name? = some x) :
    Text.isWord x = true := by
  refine (Node.worded_iff.1 h).1 x ?_
  unfold Node.name? at hx
  split at hx
  · next s hkind =>
    cases hx
    rw [hkind]
    exact .head _
  · cases hx

theorem Bundle.isWord_name {library : Bundle} {b : Builtin} (h : b ∈ library.contents) :
    Text.isWord b.name = true := by
  revert b
  cases library <;> decide

/-- The law that operators stay in their place. -/
def Law.operators : Law where
  node := Node.Worded
  chain c := Scopes.global ∈ c
  value := Value.Orderly
  scopes := Scopes.Orderly
  plain {v} h := by cases v <;> trivial
  child h hc := (Node.worded_iff.1 h).2 _ hc
  top := .head _
  found _ _ _ hs hv := Scopes.Hold.found hs.values hv
  assigned h hx _ hs hv := hs.assign (h.word_of_name? hx) hv _
  declared h hx _ hs hv := hs.define (h.word_of_name? hx) hv _
  counted h hkind _ hs hv :=
    hs.define ((Node.worded_iff.1 h).1 _ (by rw [hkind]; exact .head _)) hv _
  swapped _ h hx _ hs hv := hs.define (h.word_of_name? hx) hv _
  closed {n body kind name params serial c s} h hkind hbody hc hs := by
    have hnames : ∀ x ∈ name :: params, Text.isWord x = true := by
      intro x hx
      refine (Node.worded_iff.1 h).1 x ?_
      rw [hkind]
      cases kind <;> exact hx
    obtain ⟨i, -, hi⟩ := Option.bind_eq_some_iff.1 hbody
    have hinside : body.Worded := (Node.worded_iff.1 h).2 body (List.mem_of_getElem? hi)
    have hvalue : Value.Orderly (.closure ⟨serial, name, params, body, c⟩) :=
      ⟨fun x hx => hnames x (.tail _ hx), hinside, hc⟩
    exact hs.define (hnames name (.head _)) hvalue _
  body h := h.2.1
  entered h hargs hs := ⟨hs.push h.1 hargs, .tail _ h.2.2⟩
  installed {_ b serial _} hb hs :=
    hs.define (v := .builtin b serial) (Bundle.isWord_name hb) trivial _

/-! ### Before the first program -/

theorem Machine.find?_initialBindings (op : Operator) :
    initialBindings.find? op.name = some (.builtin (.operator op) 0) := by
  cases op <;> rfl

/-- There are no functions of a program yet. -/
theorem Machine.ne_closure_initialBindings {key : String} {v : Value}
    (h : initialBindings.find? key = some v) (c : Closure) : v ≠ .closure c := by
  obtain ⟨l, r, hes, -⟩ := List.lookup_eq_some_iff.1 h
  have hmem : (key, v) ∈ initialBindings.entries := by simp [hes]
  rcases List.mem_append.1 hmem with hmem | hmem
  · obtain ⟨b, -, heq⟩ := List.mem_map.1 hmem
    cases heq
    nofun
  · simp only [List.mem_cons, Prod.mk.injEq, List.not_mem_nil, or_false] at hmem
    rcases hmem with ⟨-, rfl⟩ | ⟨-, rfl⟩ | ⟨-, rfl⟩ | ⟨-, rfl⟩ <;> nofun

theorem Machine.local?_fresh (world : World) (disk : Disk) (input : Input) (id : ScopeId)
    (key : String) :
    (fresh world disk input).scopes.local? id key =
      if id = Scopes.global then initialBindings.find? key else none := by
  cases id with
  | zero => rfl
  | succ id => rfl

/-- What is asked of the functions of a program only is true of all that is bound at the start. -/
theorem Machine.hold_fresh {V : Value → Prop} (h : ∀ v, (∀ c, v ≠ .closure c) → V v)
    (world : World) (disk : Disk) (input : Input) : (fresh world disk input).scopes.Hold V := by
  intro id key v hv
  rw [local?_fresh] at hv
  split at hv
  · exact h v (ne_closure_initialBindings hv)
  · cases hv

theorem Machine.obeys_fresh (world : World) (disk : Disk) (input : Input) :
    (fresh world disk input).Obeys Law.operators.guard := by
  have hvalues : ∀ v : Value, (∀ c, v ≠ .closure c) → v.Orderly := by
    intro v hv
    cases v with
    | closure c => exact absurd rfl (hv c)
    | _ => trivial
  refine ⟨⟨fun op id v => ?_, hold_fresh hvalues world disk input⟩, by simp [fresh]⟩
  rw [local?_fresh, find?_initialBindings]
  split
  · next hid => simp [hid, eq_comm]
  · next hid => simp [hid]

/-! ### Runs -/

/-- The call of an operator runs the operator. -/
theorem Node.evaluate_operator {m : Machine} {stack : CallStack} (h : m.scopes.OperatorsBound)
    (hchain : Scopes.global ∈ stack.chain) {n : Node} {op : Operator}
    (hkind : n.kind = .call op.name) (self : Evaluator) (turns : Nat) :
    n.evaluate self turns stack m =
      (do return Flow.value (← Operation.run self stack op n.children) : Run Flow) m := by
  have hcall :
      callName self stack op.name n.children m = Operation.run self stack op n.children m := by
    rw [callName, Run.bind_apply, Run.lookup_of_find? (h.find? hchain op)]
    rfl
  simp only [Node.evaluate, hkind]
  rw [Run.bind_apply, Run.bind_apply, hcall]

/-- In all states of all runs of a program the name of each operator is bound in the global scope to
that operator, and in no other scope. So a call of an operator is what the operator does, wherever
it stands and whatever the program binds. -/
theorem operators_not_shadowed {catalog : Catalog} {pieces : List String} {tree : Node}
    (read : Reader.program? catalog pieces = some tree) {limit : Nat} {start x : Moment}
    (starts : start.Starts tree limit) (visits : start.Visits x) :
    (∀ m, x.Shows m → m.scopes.OperatorsBound) ∧
    ∀ op : Operator, x.node.kind = .call op.name → ∀ (self : Evaluator) (turns : Nat),
      x.node.evaluate self turns x.stack x.machine =
        (do return Flow.value (← Operation.run self x.stack op x.node.children) : Run Flow)
          x.machine := by
  have hstart : start.Lawful Law.operators :=
    starts.lawful Machine.obeys_fresh (Reader.program?_worded read)
  have hx := hstart.visits visits
  constructor
  · intro m hm
    exact (hx.shows hm).scopes.operators
  · intro op hop self turns
    exact Node.evaluate_operator hx.machine.scopes.operators hx.chain hop self turns

/-- A function `PLUS` with a parameter `MINUS` that adds, and its value bound to `TIMES`: a run of
the program leaves the operators where they are, and on its machine the assignment still assigns. -/
theorem operators_not_shadowed_function :
    let source := "FUNCTION PLUS(MINUS)\nRETURN MINUS + 1\nEND FUNCTION\nTIMES = PLUS(2)"
    ∃ (tree n : Node) (start : Moment) (m : Machine),
      Reader.program? [] [source] = some tree ∧ start.Starts tree 256 ∧ start.Shows m ∧
      m.scopes.size = 2 ∧ (m.global? "TIMES").map (fun v => v.display m.heap) = some "3" ∧
      m.scopes.OperatorsBound ∧ n ∈ tree.children ∧ n.kind = .call Operator.assign.name ∧
      ∀ self turns, n.evaluate self turns (.bottom 256) m =
        (do return Flow.value (← Operation.run self (.bottom 256) .assign n.children) :
          Run Flow) m := by
  intro source
  let fresh : Machine := .fresh .still .empty (.ofOctets [])
  have hrun : (Reader.program? [] [source]).any (fun tree =>
      tree.children.any (fun n => n.kind = .call Operator.assign.name) &&
        (eval 8 (.bottom 256) tree fresh).machine?.any fun m =>
          m.scopes.size = 2 ∧
            (m.global? "TIMES").map (fun v => v.display m.heap) = some "3") = true := by
    decide +kernel
  obtain ⟨tree, read, hrun⟩ := (Option.any_eq_true ..).1 hrun
  obtain ⟨hassign, hends⟩ := Bool.and_eq_true_iff.1 hrun
  obtain ⟨n, hn, hkind⟩ := List.any_eq_true.1 hassign
  obtain ⟨m, hm, htimes⟩ := (Option.any_eq_true ..).1 hends
  let start : Moment := ⟨8, .bottom 256, tree, fresh⟩
  let again : Moment := ⟨8, .bottom 256, n, m⟩
  have starts : start.Starts tree 256 := ⟨rfl, .head _, .fresh .still .empty (.ofOctets [])⟩
  have starts' : again.Starts tree 256 := ⟨rfl, .tail _ hn, starts.machine.next (.head _) hm⟩
  have hbound := (operators_not_shadowed read starts .refl).1 m (.inr hm)
  have hruns := (operators_not_shadowed read starts' .refl).2 .assign (of_decide_eq_true hkind)
  obtain ⟨hsize, hthree⟩ := of_decide_eq_true htimes
  exact ⟨tree, n, start, m, read, starts, .inr hm, hsize, hthree, hbound, hn,
    of_decide_eq_true hkind, hruns⟩

end LineBasic
