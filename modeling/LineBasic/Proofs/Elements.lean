import LineBasic.Proofs.Assignments
import LineBasic.Proofs.Lexical
import LineBasic.Proofs.Restored

/-!
# Elements of arrays

An array is a reference to a sequence, which any number of variables, elements, containers and
parameters can share. An assignment to an element changes one slot of that sequence and nothing
else, and is seen through all of them. Whether an index is in range is decided when all expressions
have been evaluated, by the length that the sequence has by then, whatever they did to it. Reading
an element decides in the same way, once for each index.

* `Heap.getElem?_set_slot` : one slot of one sequence changed, and nothing else.
* `Index.InRange`, `Index.place` : the indices that a sequence takes, and the places they stand for.
* `Value.Reaches` : indices that are in range one after another, and the element that they lead to.
* `Accesses` : the last one of the indices of a name, when all indices before it were in range.
* `Value.element_of_reaches`, `Value.element_append`, `Value.element_outside` : reading elements.
* `Operation.assignElement_inside`, `Operation.assignElement_outside` : assigning to an element.
* `element_assignment_sets_one_slot` : assignments in runs, and all readings after them.
-/

namespace LineBasic

/-! ### Sequences -/

namespace Heap

variable {h : Heap} {id other : SequenceId} {f : Array Value → Array Value}

theorem sequence_modify_other (hne : other ≠ id) :
    sequence (h.modify id f) other = h.sequence other := by
  simp only [sequence, Array.getD_eq_getD_getElem?, Array.getElem?_modify, if_neg (Ne.symm hne)]

theorem sequence_modify_self (stored : id < h.size) :
    sequence (h.modify id f) id = f (h.sequence id) := by
  simp only [sequence, Array.getD_eq_getD_getElem?, Array.getElem?_modify, if_true,
    Array.getElem?_eq_getElem stored, Option.map_some, Option.getD_some]

/-- A sequence that is not there is empty. -/
theorem lt_size_of_sequence (h' : 0 < (h.sequence id).size) : id < h.size := by
  by_contra hout
  have hnone : h[id]? = none := Array.getElem?_eq_none (Nat.not_lt.1 hout)
  simp [sequence, Array.getD_eq_getD_getElem?, hnone] at h'

/-- One slot of one sequence is set. -/
theorem getElem?_set_slot {place : Nat} (v : Value) (inside : place < (h.sequence id).size)
    (other : SequenceId) (k : Nat) :
    (sequence (h.modify id fun items => items.setIfInBounds place v) other)[k]? =
      if other = id ∧ k = place then some v else (h.sequence other)[k]? := by
  by_cases hother : other = id
  · subst hother
    rw [sequence_modify_self (lt_size_of_sequence (Nat.zero_lt_of_lt inside)),
      Array.getElem?_setIfInBounds]
    by_cases hk : k = place
    · rw [if_pos hk.symm, if_pos (hk ▸ inside), if_pos ⟨rfl, hk⟩]
    · rw [if_neg (Ne.symm hk), if_neg fun h => hk h.2]
  · rw [sequence_modify_other hother, if_neg fun h => hother h.1]

theorem size_set_slot (h : Heap) (id other : SequenceId) (place : Nat) (v : Value) :
    (sequence (h.modify id fun items => items.setIfInBounds place v) other).size =
      (h.sequence other).size := by
  by_cases hother : other = id
  · subst hother
    by_cases stored : other < h.size
    · rw [sequence_modify_self stored, Array.size_setIfInBounds]
    · have hnone : h[other]? = none := Array.getElem?_eq_none (Nat.not_lt.1 stored)
      simp only [sequence, Array.getD_eq_getD_getElem?, Array.getElem?_modify, if_true, hnone,
        Option.map_none]
  · rw [sequence_modify_other hother]

end Heap

/-! ### Indices -/

namespace Index

/-- An index that a sequence of this length takes. -/
def InRange (i : Int64) (length : Nat) : Prop := 1 ≤ i.toInt ∧ i.toInt ≤ length

instance (i : Int64) (length : Nat) : Decidable (InRange i length) :=
  inferInstanceAs (Decidable (_ ∧ _))

/-- The place of an index, which counts from one. -/
def place (i : Int64) : Nat := i.toInt.toNat - 1

theorem InRange.place_lt {i : Int64} {length : Nat} (h : InRange i length) : place i < length := by
  unfold InRange at h
  unfold place
  omega

end Index

namespace Value

variable {u : Value} {i : Int64} {length : Nat}

/-- An index refers to nothing. -/
theorem referents_of_whole (hu : u.whole? = some i) : u.referents = [] := by
  cases u with
  | closure c => cases hu
  | queue id => cases hu
  | stack id => cases hu
  | array id => cases hu
  | file id => cases hu
  | _ => rfl

theorem slot_inside (hu : u.whole? = some i) (h : Index.InRange i length) :
    u.slot length = .ok (Index.place i) := by
  unfold slot
  rw [hu]
  exact if_pos h

theorem slot_outside (hu : u.whole? = some i) (h : ¬Index.InRange i length) :
    u.slot length = .error (.indexOutOfRange i length) := by
  unfold slot
  rw [hu]
  exact if_neg h

/-! ### Reading -/

/-- Indices that lead from a value to another one: each of them is in the range of the array that
has been reached, with the length that it has when the index has been evaluated. The array is
kept aside meanwhile. -/
inductive Reaches (self : Evaluator) (stack : CallStack) :
    Value → List Node → Machine → Value → Machine → Prop
  | here (v : Value) (m : Machine) : Reaches self stack v [] m v m
  | deeper {id : SequenceId} {n : Node} {ns : List Node} {m m₁ m₂ : Machine} {u v w : Value}
      {i : Int64} (index : self.value (stack.hold [.array id]) n m = .value u m₁)
      (whole : u.whole? = some i) (inside : Index.InRange i (m₁.heap.sequence id).size)
      (item : (m₁.heap.sequence id)[Index.place i]? = some v)
      (rest : Reaches self stack v ns m₁ w m₂) : Reaches self stack (.array id) (n :: ns) m w m₂

section Elements

variable {self : Evaluator} {stack : CallStack} {id : SequenceId} {n : Node} {ns : List Node}
  {m m₁ m₂ : Machine} {v w : Value}

theorem element_inside (index : self.value (stack.hold [.array id]) n m = .value u m₁)
    (whole : u.whole? = some i) (inside : Index.InRange i (m₁.heap.sequence id).size)
    (item : (m₁.heap.sequence id)[Index.place i]? = some v) :
    element self stack (.array id) (n :: ns) m = element self stack v ns m₁ := by
  have hget : (m₁.heap.sequence id).getD (Index.place i) .nothing = v := by
    rw [Array.getD_eq_getD_getElem?, item, Option.getD_some]
  rw [element, Run.bind_of_value index]
  show (Run.ofExcept (u.slot (m₁.heap.sequence id).size) >>= fun place =>
    element self stack ((m₁.heap.sequence id).getD place .nothing) ns) m₁ = _
  rw [slot_inside whole inside, ← hget]
  rfl

theorem element_outside (index : self.value (stack.hold [.array id]) n m = .value u m₁)
    (whole : u.whole? = some i) (outside : ¬Index.InRange i (m₁.heap.sequence id).size) :
    element self stack (.array id) (n :: ns) m =
      .failure (.indexOutOfRange i (m₁.heap.sequence id).size) m₁ := by
  rw [element, Run.bind_of_value index]
  show (Run.ofExcept (u.slot (m₁.heap.sequence id).size) >>= fun place =>
    element self stack ((m₁.heap.sequence id).getD place .nothing) ns) m₁ = _
  rw [slot_outside whole outside]
  rfl

theorem element_append (v : Value) (ns ns' : List Node) :
    element self stack v (ns ++ ns') = element self stack v ns >>= fun w =>
      element self stack w ns' := by
  induction ns generalizing v with
  | nil => rw [List.nil_append, element, Run.pure_bind]
  | cons n ns ih =>
    rw [List.cons_append, element, element, Run.bind_assoc]
    congr 1
    funext u
    cases v with
    | array id => simp only [Run.bind_assoc, ih]
    | _ => rfl

theorem element_of_reaches (h : Reaches self stack v ns m w m₂) :
    element self stack v ns m = .value w m₂ := by
  induction h with
  | here v m => rfl
  | deeper index whole inside item _ ih => rw [element_inside index whole inside item, ih]

end Elements
end Value

section Reading

variable {self : Evaluator} {stack : CallStack} {y : String} {id : SequenceId} {n : Node}
  {ns : List Node} {m m' : Machine} {v : Value} {i : Int64}

/-- A name that is bound to an array is indexed. -/
theorem Node.evaluate_element (bound : m.scopes.find? stack.chain y = some (.array id))
    (turns : Nat) :
    (Node.call y ns).evaluate self turns stack m =
      (do return Flow.value (← Value.element self stack (.array id) ns) : Run Flow) m := by
  have hcall : callName self stack y ns m = Value.element self stack (.array id) ns m := by
    rw [callName, Run.bind_of_value (Run.lookup_of_find? bound)]
  show (callName self stack y ns >>= fun v => pure (Flow.value v)) m = _
  rw [Run.bind_apply, Run.bind_apply, hcall]

/-- A name is bound to an array, some indices lead to an array `last`, and the next index is `i`:
when it has been evaluated, the machine is `m'`. -/
def Accesses (self : Evaluator) (stack : CallStack) (y : String) (ns : List Node) (n : Node)
    (m : Machine) (last : SequenceId) (i : Int64) (m' : Machine) : Prop :=
  ∃ first m₁ u, m.scopes.find? stack.chain y = some (.array first) ∧
    Value.Reaches self stack (.array first) ns m (.array last) m₁ ∧
    self.value (stack.hold [.array last]) n m₁ = .value u m' ∧ u.whole? = some i

/-- An index in range gives the element. -/
theorem Accesses.inside (h : Accesses self stack y ns n m id i m')
    (item : (m'.heap.sequence id)[Index.place i]? = some v)
    (inside : Index.InRange i (m'.heap.sequence id).size) (turns : Nat) :
    (Node.call y (ns ++ [n])).evaluate self turns stack m = .value (.value v) m' := by
  obtain ⟨first, m₁, u, bound, reached, index, whole⟩ := h
  rw [Node.evaluate_element bound, Value.element_append, Run.bind_assoc,
    Run.bind_of_value (Value.element_of_reaches reached), Run.bind_apply,
    Value.element_inside index whole inside item]
  rfl

/-- If an index is not in range, the access fails, whatever indices come after it. -/
theorem Accesses.outside (h : Accesses self stack y ns n m id i m')
    (outside : ¬Index.InRange i (m'.heap.sequence id).size) (rest : List Node) (turns : Nat) :
    (Node.call y (ns ++ n :: rest)).evaluate self turns stack m =
      .failure (.indexOutOfRange i (m'.heap.sequence id).size) m' := by
  obtain ⟨first, m₁, u, bound, reached, index, whole⟩ := h
  rw [Node.evaluate_element bound, Value.element_append, Run.bind_assoc,
    Run.bind_of_value (Value.element_of_reaches reached)]
  exact Run.bind_of_failure (Value.element_outside index whole outside)

end Reading

/-! ### Assigning -/

namespace Operation

variable {self : Evaluator} {stack : CallStack} {x : String} {index e : Node} {m m₁ m₂ : Machine}
  {u v : Value} {i : Int64} {id : SequenceId}

/-- When both expressions have been evaluated, it remains to find the place and to set it. The index
is kept aside while the value is evaluated. -/
theorem assignElement_eq (hindex : self.value stack index m = .value u m₁)
    (hvalue : self.value (stack.hold [u]) e m₁ = .value v m₂)
    (bound : m₂.scopes.find? stack.chain x = some (.array id)) :
    assignElement self stack (.ofName x) index e m =
      (Run.ofExcept (u.slot (m₂.heap.sequence id).size) >>= fun place => do
        Run.update fun m => m.edit id fun items => items.setIfInBounds place v
        return .nothing : Run Value) m₂ := by
  show (self.value stack index >>= fun i => _) m = _
  rw [Run.bind_of_value hindex, Run.bind_of_value hvalue,
    Run.bind_of_value (Run.lookup_of_find? bound)]
  rfl

theorem assignElement_inside (hindex : self.value stack index m = .value u m₁)
    (hvalue : self.value (stack.hold [u]) e m₁ = .value v m₂)
    (bound : m₂.scopes.find? stack.chain x = some (.array id)) (whole : u.whole? = some i)
    (inside : Index.InRange i (m₂.heap.sequence id).size) :
    assignElement self stack (.ofName x) index e m =
      .value .nothing (m₂.edit id fun items => items.setIfInBounds (Index.place i) v) := by
  rw [assignElement_eq hindex hvalue bound, Value.slot_inside whole inside]
  rfl

theorem assignElement_outside (hindex : self.value stack index m = .value u m₁)
    (hvalue : self.value (stack.hold [u]) e m₁ = .value v m₂)
    (bound : m₂.scopes.find? stack.chain x = some (.array id)) (whole : u.whole? = some i)
    (outside : ¬Index.InRange i (m₂.heap.sequence id).size) :
    assignElement self stack (.ofName x) index e m =
      .failure (.indexOutOfRange i (m₂.heap.sequence id).size) m₂ := by
  rw [assignElement_eq hindex hvalue bound, Value.slot_outside whole outside]
  rfl

end Operation

/-- An assignment to an element evaluates both expressions. If the name is then bound to an array,
and the index is in the range that this array then has, the assignment ends and sets the slot: it
is read through the name and through all other names, elements and containers that refer to the
array, and nothing else is changed, in no array and otherwise. If the index is not in the range,
the assignment fails, and nothing at all is changed. So it is wherever the assignment stands in a
program. On all machines, reading an element takes the same indices, and fails at the first one
that is not in range. -/
theorem element_assignment_sets_one_slot {catalog : Catalog} {pieces : List String} {tree : Node}
    {limit : Nat} {start p : Moment} (read : Reader.program? catalog pieces = some tree)
    (starts : start.Starts tree limit) (visits : start.Visits p) {x : String} {index e : Node}
    (assigns : p.node = .operation .assignElement [.ofName x, index, e]) {u v : Value} {i : Int64}
    {id : SequenceId} {m₁ m₂ : Machine}
    (indexed : (eval (p.fuel - 1)).value p.stack index p.machine = .value u m₁)
    (whole : u.whole? = some i) (valued : (eval (p.fuel - 1)).value p.stack e m₁ = .value v m₂)
    (bound : m₂.scopes.find? p.stack.chain x = some (.array id)) :
    (Index.InRange i (m₂.heap.sequence id).size →
      ∃ m₃, p.outcome = .value .done m₃ ∧ m₃ = { m₂ with heap := m₃.heap } ∧
      m₃.heap.size = m₂.heap.size ∧
        (∀ other, (m₃.heap.sequence other).size = (m₂.heap.sequence other).size) ∧
        (∀ other k, (m₃.heap.sequence other)[k]? =
          if other = id ∧ k = Index.place i then some v else (m₂.heap.sequence other)[k]?) ∧
        (∀ fuel stack n, (eval fuel).value (stack.hold [.array id]) n m₃ = .value (.int i) m₃ →
          Value.element (eval fuel) stack (.array id) [n] m₃ = .value v m₃) ∧
        ∀ fuel stack y ns n, Accesses (eval fuel) stack y ns n m₃ id i m₃ →
          eval (fuel + 1) stack (.call y (ns ++ [n])) m₃ = .value (.value v) m₃) ∧
    (¬Index.InRange i (m₂.heap.sequence id).size →
      p.outcome = .failure (.indexOutOfRange i (m₂.heap.sequence id).size) m₂) ∧
    ∀ fuel stack y ns n m last j m', Accesses (eval fuel) stack y ns n m last j m' →
      (Index.InRange j (m'.heap.sequence last).size →
        ∃ w, (m'.heap.sequence last)[Index.place j]? = some w ∧
          eval (fuel + 1) stack (.call y (ns ++ [n])) m = .value (.value w) m') ∧
      (¬Index.InRange j (m'.heap.sequence last).size → ∀ rest,
        eval (fuel + 1) stack (.call y (ns ++ n :: rest)) m =
          .failure (.indexOutOfRange j (m'.heap.sequence last).size) m') := by
  have hlawful : p.Lawful Law.operators :=
    (starts.lawful Machine.obeys_fresh (Reader.program?_worded read)).visits visits
  have houtcome : p.outcome = (do
      return Flow.value
        (← Operation.assignElement (eval (p.fuel - 1)) p.stack (.ofName x) index e) : Run Flow)
        p.machine := by
    obtain ⟨fuel, stack, n, m⟩ := p
    cases fuel with
    | zero => cases indexed
    | succ fuel =>
      have hkind : n.kind = .call Operator.assignElement.name := by
        rw [show n = _ from assigns]; rfl
      rw [Moment.outcome, eval_succ,
        Node.evaluate_operator hlawful.machine.scopes.operators hlawful.chain hkind,
          show n = _ from assigns]
      rfl
  have hsame : (p.stack.hold [u]).Same p.stack :=
    CallStack.same_hold (List.forall_mem_singleton.2 (Value.referents_of_whole whole))
  rw [← value_same _ hsame] at valued
  refine ⟨fun inside => ?_, fun outside => ?_, fun fuel stack y ns n m last j m' access =>
    ⟨fun inside => ?_, ?_⟩⟩
  · -- the slot is set, and there is nothing that a reference to the array could add to that
    have hslots := Heap.getElem?_set_slot (h := m₂.heap) v inside.place_lt
    have hset := (hslots id (Index.place i)).trans (if_pos ⟨rfl, rfl⟩)
    have hsizes (other : SequenceId) := Heap.size_set_slot m₂.heap id other (Index.place i) v
    have hrange := (hsizes id).symm ▸ inside
    refine ⟨m₂.edit id fun items =>
      items.setIfInBounds (Index.place i) v, ?_, rfl, Array.size_modify, hsizes,
      hslots, ?_, ?_⟩
    · rw [houtcome,
        Run.bind_of_value (Operation.assignElement_inside indexed valued bound whole inside)]
      rfl
    · intro fuel stack n hindex
      rw [Value.element_inside hindex rfl hrange hset]
      rfl
    · exact fun fuel stack y ns n access => access.inside hset hrange fuel
  · rw [houtcome]
    exact Run.bind_of_failure (Operation.assignElement_outside indexed valued bound whole outside)
  · exact ⟨_, Array.getElem?_eq_getElem inside.place_lt,
      access.inside (Array.getElem?_eq_getElem inside.place_lt) inside fuel⟩
  · exact fun outside rest => access.outside outside rest fuel

/-- The value is a reference to the array with an identity. -/
def Value.refersTo (id : SequenceId) : Value → Bool
  | .array i => i = id
  | _ => false

theorem Value.refersTo_iff {id : SequenceId} {v : Value} :
    v.refersTo id = true ↔ v = .array id := by
  cases v <;> simp [refersTo]

/-- An array that is an element of another one, after a program that has failed at its end. The
assignment to the second element ends and is seen through the other array; the one to the
fourth element fails. -/
theorem element_assignment_sets_one_slot_shared :
    let source := "A = {1, 2, 3}\nB = {A, 7}\nA(4) = 5\nA(2) = 5"
    let stack : CallStack := .bottom 256
    ∃ (tree fourth second : Node) (m m' : Machine), Reader.program? [] [source] = some tree ∧
      fourth ∈ tree.children ∧ second ∈ tree.children ∧
      eval 2 stack fourth m = .failure (.indexOutOfRange 4 3) m ∧
      eval 2 stack second m = .value .done m' ∧
      eval 2 stack (.call "B" [.literal (.int 1), .literal (.int 2)]) m' =
        .value (.value (.int 5)) m' ∧
      eval 2 stack (.call "A" [.literal (.int 0)]) m' = .failure (.indexOutOfRange 0 3) m' := by
  intro source stack
  let set (i : Int64) : Node :=
    .operation .assignElement [.ofName "A", .literal (.int i), .literal (.int 5)]
  let tree : Node := .program
    [.operation .assign
      [.ofName "A", .array [.literal (.int 1), .literal (.int 2), .literal (.int 3)]],
      .operation .assign [.ofName "B", .array [.ofName "A", .literal (.int 7)]], set 4, set 2]
  have read : Reader.program? [] [source] = some tree := by decide +kernel
  let fresh : Machine := .fresh .still .empty (.ofOctets [])
  have hrun : (eval 8 stack tree fresh).machine?.any (fun m =>
      (m.scopes.find? [Scopes.global] "A").any (Value.refersTo 0) &&
      (m.scopes.find? [Scopes.global] "B").any (Value.refersTo 1) &&
      (m.heap.sequence 0).size = 3 && (m.heap.sequence 1).size = 2 &&
      (m.heap.sequence 1)[0]?.any (Value.refersTo 0)) = true := by
    decide +kernel
  obtain ⟨m, hends, hstate⟩ := (Option.any_eq_true ..).1 hrun
  simp only [Bool.and_eq_true, decide_eq_true_eq, Option.any_eq_true, Value.refersTo_iff] at hstate
  obtain ⟨⟨⟨⟨⟨_, hA, rfl⟩, ⟨_, hB, rfl⟩⟩, hthree⟩, htwo⟩, ⟨_, hshared, rfl⟩⟩ := hstate
  have starts (i : Int64) (unit : set i ∈ tree.children) :
      Moment.Starts tree 256 ⟨2, stack, set i, m⟩ :=
    ⟨rfl, .tail _ unit, (Machine.Executed.fresh .still .empty (.ofOctets [])).next (.head _) hends⟩
  have fourth : set 4 ∈ tree.children := by decide
  have second : set 2 ∈ tree.children := by decide
  obtain ⟨-, outside, -⟩ :=
    element_assignment_sets_one_slot read (starts 4 fourth) .refl rfl rfl rfl rfl hA
  obtain ⟨inside, -, reads⟩ :=
    element_assignment_sets_one_slot read (starts 2 second) .refl rfl rfl rfl rfl hA
  obtain ⟨m', hset, hrest, -, hsizes, hslots, -, hshown⟩ := inside (by rw [hthree]; decide)
  have hlength : (m'.heap.sequence 0).size = 3 := (hsizes 0).trans hthree
  have hA' : m'.scopes.find? stack.chain "A" = some (.array 0) := by rw [hrest]; exact hA
  have hB' : m'.scopes.find? stack.chain "B" = some (.array 1) := by rw [hrest]; exact hB
  have hitem : (m'.heap.sequence 1)[0]? = some (.array 0) := (hslots 1 0).trans hshared
  have hfirst : Index.InRange 1 (m'.heap.sequence 1).size := by
    rw [hsizes 1, htwo]
    decide
  refine ⟨tree, set 4, set 2, m, m', read, fourth, second, ?_, hset, ?_, ?_⟩
  · rw [← hthree]
    exact outside (by rw [hthree]; decide)
  · exact hshown 1 stack "B" [.literal (.int 1)] (.literal (.int 2))
      ⟨1, m', .int 2, hB', .deeper rfl rfl hfirst hitem (.here _ _), rfl, rfl⟩
  · rw [← hlength]
    exact (reads 1 stack "A" [] (.literal (.int 0)) m' 0 0 m'
      ⟨0, m', .int 0, hA', .here _ _, rfl, rfl⟩).2
      (by rw [hlength]; decide) []

end LineBasic
