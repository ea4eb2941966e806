import LineBasic.Proofs.BuiltinSafety
import LineBasic.Proofs.Nesting

/-!
# Safety of evaluation

Evaluating a tree that the rules build, on a sound machine, ends in no internal error, keeps the
machine sound, and ends with no signal but those that its place takes.

* `Flow.Fits` : the ends of a statement that its place takes.
* `Evaluator.SafeFor` : what the rule for a node needs of the evaluator: the children of the node
  are safe under the same calls, and so are the bodies of closures under one call more.
* `Node.evaluate_safe` : one rule, for any such evaluator.
* `eval_safe` : the evaluator itself.
* `program_sound` : the trees of source text are well formed, and running them
  ends in no internal error.
-/

namespace LineBasic

/-! ### Ends of statements and of calls -/

/-- The ends of a statement that its place takes. -/
def Flow.Fits (p : Place) : Flow → Prop
  | .value v => v.Sound
  | .signal .exitLoop => p.jumps = true
  | .signal .continueLoop => p.jumps = true
  | .signal (.returned v) => p.returns = true ∧ v.Sound

namespace Flow.Fits

theorem result {p : Place} {f : Flow} (h : f.Fits p) : f.result.Sound := by
  cases f with
  | value v => exact h
  | signal s => trivial

theorem returnValue {p : Place} {f : Flow} (h : f.Fits p) : f.returnValue.Sound := by
  cases f with
  | value v => trivial
  | signal s =>
    cases s with
    | exitLoop => trivial
    | continueLoop => trivial
    | returned v => exact h.2

end Flow.Fits

namespace Closure

/-- A call that is entered. -/
structure Callable (stack : CallStack) (c : Closure) (args : List Value) : Prop where
  sound : (Value.closure c).Sound
  arguments : ∀ v ∈ args, v.Sound
  count : args.length = c.params.length
  room : stack.isFull = false

/-- The chain that the body of a call is evaluated in. -/
def chainIn (c : Closure) (m : Machine) : Chain := m.scopes.size :: c.scope

/-- The machine that the body of a call starts on. -/
def entry (c : Closure) (args : List Value) (m : Machine) : Machine :=
  (m.newScope (.ofArguments c.params args)).2

/-- The end of a call, from the end of its body. -/
def leave : Outcome Flow → Outcome Value
  | .value f m => .value f.returnValue m
  | .failure e m => .failure e m
  | .exhausted => .exhausted

/-- A call is its body, evaluated in a new scope. -/
theorem enter_eq (self : Evaluator) {stack : CallStack} {c : Closure} {args : List Value}
    (count : args.length = c.params.length) (room : stack.isFull = false) (m : Machine) :
    c.enter self stack args m =
      leave (self (stack.push (c.chainIn m)) c.body (c.entry args m)) := by
  have hcheck : c.checkCount args.length = (Pure.pure () : Run Unit) := by
    simp [checkCount, count]
  unfold enter
  rw [hcheck, room]
  show (Run.bind _ _) _ = _
  cases h : self (stack.push (c.chainIn m)) c.body (c.entry args m) <;>
    simp_all [Run.bind, Run.take, leave, entry, chainIn, Machine.newScope, pure, Run.pure, bind]

end Closure

/-! ### What a rule needs -/

/-- What the rule for a node with these children needs of the evaluator of parts. Values are kept
aside while expressions are evaluated, and during calls. -/
structure Evaluator.SafeFor (ev : Evaluator) (stack : CallStack) (parts : List Node) : Prop where
  part : ∀ n ∈ parts, ∀ p, n.Fits p → (ev stack n).Safe (Flow.Fits p)
  operand : ∀ held, ∀ n ∈ parts, n.Expression → (ev (stack.hold held) n).Safe (Flow.Fits .top)
  body : ∀ held c args, Closure.Callable stack c args → ∀ m, m.Sound →
    (ev ((stack.hold held).push (c.chainIn m)) c.body (c.entry args m)).Safe (Flow.Fits .call)

namespace Evaluator.SafeFor

variable {self : Evaluator} {stack : CallStack} {parts : List Node} {n : Node}

theorem value (h : self.SafeFor stack parts) (held : List Value) (hn : n ∈ parts)
    (he : n.Expression) :
    (self.value (stack.hold held) n).Safe Value.Sound :=
  .bind (h.operand held n hn he) fun _ hf => .pure hf.result

theorem values {ns : List Node} (h : self.SafeFor stack parts) (held : List Value)
    (hns : ∀ n ∈ ns, n ∈ parts) (he : ∀ n ∈ ns, n.Expression) :
    (self.values (stack.hold held) ns).Safe fun vs => ∀ v ∈ vs, v.Sound := by
  induction ns generalizing held with
  | nil => exact .pure (by simp)
  | cons n ns ih =>
    unfold Evaluator.values
    refine .bind (h.value held (hns n (by simp)) (he n (by simp))) fun v hv => ?_
    rw [CallStack.hold_hold]
    refine .bind (ih _ (fun k hk => hns k (by simp [hk])) fun k hk => he k (by simp [hk])) ?_
    intro vs hvs
    exact .pure (List.forall_mem_cons.2 ⟨hv, hvs⟩)

theorem truth (h : self.SafeFor stack parts) (hn : n ∈ parts) (he : n.Expression) :
    (self.truth stack n).Safe fun _ => True :=
  .bind (h.value [] hn he) fun _ _ => .look

/-- A call of a function of the program. -/
theorem enter {c : Closure} {args : List Value} (h : self.SafeFor stack parts) (held : List Value)
    (hc : (Value.closure c).Sound) (hargs : ∀ v ∈ args, v.Sound) :
    (c.enter self (stack.hold held) args).Safe Value.Sound := by
  by_cases count : args.length = c.params.length
  · cases room : stack.isFull with
    | true =>
      have hcheck : c.checkCount args.length = (Pure.pure () : Run Unit) := by
        simp [Closure.checkCount, count]
      unfold Closure.enter
      rw [hcheck, CallStack.hold_isFull, room]
      exact .andThen (.pure trivial) fun _ => .fail rfl
    | false =>
      intro m hm
      have hroom : (stack.hold held).isFull = false := room
      rw [Closure.enter_eq self count hroom]
      have hbody := h.body held c args ⟨hc, hargs, count, room⟩ m hm
      cases hend : self ((stack.hold held).push (c.chainIn m)) c.body (c.entry args m) with
      | value f m' =>
        rw [hend] at hbody
        exact ⟨hbody.1, hbody.2.returnValue⟩
      | failure e m' =>
        rw [hend] at hbody
        exact hbody
      | exhausted => trivial
  · have hcheck : c.checkCount args.length =
        Run.fail (.argumentCount c.name c.params.length args.length) := by
      simp [Closure.checkCount, count]
    unfold Closure.enter
    rw [hcheck]
    refine .bind (P := fun _ => False) (.fail ?_) fun _ h => h.elim
    exact Error.isInternal_argumentCount hc.1 ..

/-- How a sound value is applied to sound arguments. -/
theorem application {t : Value} {f : CallStack → List Value → Run Value} {args : List Value}
    (h : self.SafeFor stack parts) (ht : t.Sound) (hf : t.application? self = some f)
    (held : List Value) (hargs : ∀ v ∈ args, v.Sound) :
    (f (stack.hold held) args).Safe Value.Sound := by
  cases t with
  | closure c =>
    cases hf
    exact h.enter held ht hargs
  | builtin b serial =>
    cases hf
    exact b.apply_safe hargs
  | _ => cases hf

end Evaluator.SafeFor

/-! ### Operators -/

theorem Node.Expression.word {n : Node} {s : String} (h : n.Expression) (hs : n.name? = some s) :
    Text.isWord s = true := by
  cases h with
  | name word =>
    cases hs
    exact word
  | _ => cases hs

namespace Operation

variable {self : Evaluator} {stack : CallStack} {parts : List Node}

theorem nameOf_safe {n : Node} (role : NameRole) (he : n.Expression)
    (named : n.name?.isSome = true) :
    (nameOf role n).Safe fun s => Text.isWord s = true := by
  obtain ⟨s, hs⟩ := Option.isSome_iff_exists.1 named
  unfold nameOf
  rw [hs]
  exact .pure (he.word hs)

theorem assign_safe {target e : Node} (h : self.SafeFor stack [target, e])
    (he : ∀ n ∈ [target, e], n.Expression) (named : target.name?.isSome = true) :
    (assign self stack target e).Safe Value.Sound := by
  unfold assign
  refine .bind (nameOf_safe _ (he _ (by simp)) named) fun name _ => ?_
  refine .bind (h.value [] (by simp) (he _ (by simp))) fun v hv => ?_
  exact .andThen (.update fun m hm => hm.assign hv) fun _ => .pure trivial

theorem assignElement_safe {target index e : Node} (h : self.SafeFor stack [target, index, e])
    (he : ∀ n ∈ [target, index, e], n.Expression) (named : target.name?.isSome = true) :
    (assignElement self stack target index e).Safe Value.Sound := by
  unfold assignElement
  refine .bind (nameOf_safe _ (he _ (by simp)) named) fun name word => ?_
  refine .bind (h.value [] (by simp) (he _ (by simp))) fun i _ => ?_
  refine .bind (h.value [i] (by simp) (he _ (by simp))) fun v hv => ?_
  refine .bind (.lookup stack.chain name) fun a _ => ?_
  split
  · refine .andThen .look fun size => ?_
    refine .andThen (.ofExcept (i.slot_checked size)) fun place => ?_
    refine .andThen (.update fun m hm => ?_) fun _ => .pure trivial
    refine hm.edit _ fun items hi w hw => ?_
    rcases Array.mem_or_eq_of_mem_setIfInBounds hw with hw | rfl
    · exact hi w hw
    · exact hv
  · exact .fail rfl

theorem size_checked (h : Heap) (v : Value) : Checked (fun _ => True) (size h v) := by
  unfold size
  split
  · split
    · trivial
    · split <;> trivial
  · trivial

theorem collect_safe {make : CallStack → Run Value}
    (h : ∀ held, (make (stack.hold held)).Safe Value.Sound) {count : Nat} {items : Array Value}
    (hi : Sequence.Sound items) : (collect stack make count items).Safe Sequence.Sound := by
  induction count generalizing items with
  | zero => exact .pure hi
  | succ count ih =>
    unfold collect
    exact .bind (h _) fun v hv => ih (hi.push hv)

theorem initial_safe {make : CallStack → Run Value} {count : Option Node} {held : List Value}
    (h : self.SafeFor stack parts) (hmake : ∀ held, (make (stack.hold held)).Safe Value.Sound)
    (hcount : ∀ n ∈ count, n ∈ parts ∧ n.Expression) :
    (initial self (stack.hold held) make count).Safe Value.Sound := by
  cases count with
  | none => exact hmake held
  | some n =>
    obtain ⟨hn, he⟩ := hcount n rfl
    unfold initial
    refine .bind (h.value held hn he) fun v _ => ?_
    refine .andThen .look fun heap => ?_
    refine .andThen (.ofExcept (size_checked heap v)) fun k => ?_
    have hmore (more : List Value) : (make ((stack.hold held).hold more)).Safe Value.Sound := by
      rw [CallStack.hold_hold]
      exact hmake _
    refine .bind (collect_safe hmore (by simp [Sequence.Sound])) fun items hi => ?_
    exact .andThen (.allocate hi) fun _ => .pure trivial

theorem declare_safe {target type : Node} {count : Option Node}
    (h : self.SafeFor stack (target :: type :: count.toList))
    (he : ∀ n ∈ target :: type :: count.toList, n.Expression)
    (named : target.name?.isSome = true) (typed : type.name?.isSome = true) :
    (declare self stack target type count).Safe Value.Sound := by
  unfold declare
  refine .bind (nameOf_safe _ (he _ (by simp)) named) fun name _ => ?_
  refine .bind (nameOf_safe _ (he _ (by simp)) typed) fun typeName word => ?_
  refine .bind (.lookupWord _ word) fun t ht => ?_
  split
  · next make hmake =>
    have hcount : ∀ n ∈ count, n ∈ target :: type :: count.toList ∧ n.Expression := by
      rintro n rfl
      exact ⟨by simp, he n (by simp)⟩
    have hsafe (held : List Value) : (make (stack.hold held) []).Safe Value.Sound :=
      h.application ht hmake held (by simp)
    refine .bind (initial_safe h hsafe hcount) fun v hv => ?_
    exact .andThen (.update fun m hm => hm.define hv) fun _ => .pure trivial
  · exact .fail rfl

theorem typeOf_safe {n : Node} (h : self.SafeFor stack parts) (held : List Value) (hn : n ∈ parts)
    (he : n.Expression) : (typeOf self (stack.hold held) n).Safe Value.Sound := by
  unfold typeOf
  split
  · next name hname => exact .lookupWord _ (he.word hname)
  · exact h.value held hn he

theorem convert_safe {e type : Node} (h : self.SafeFor stack [e, type])
    (he : ∀ n ∈ [e, type], n.Expression) : (convert self stack e type).Safe Value.Sound := by
  unfold convert
  refine .bind (h.value [] (by simp) (he _ (by simp))) fun v hv => ?_
  refine .bind (typeOf_safe h [v] (by simp) (he _ (by simp))) fun t ht => ?_
  split
  · next f hf => exact h.application ht hf [] (by simpa using hv)
  · exact .fail rfl

theorem choose_safe {guard yes no : Node} (h : self.SafeFor stack [guard, yes, no])
    (he : ∀ n ∈ [guard, yes, no], n.Expression) :
    (choose self stack guard yes no).Safe Value.Sound := by
  unfold choose
  refine .andThen (h.truth (by simp) (he _ (by simp))) fun b => ?_
  split
  · exact h.value [] (by simp) (he _ (by simp))
  · exact h.value [] (by simp) (he _ (by simp))

theorem both_safe {a b : Node} (h : self.SafeFor stack [a, b]) (he : ∀ n ∈ [a, b], n.Expression) :
    (both self stack a b).Safe Value.Sound := by
  unfold both
  refine .andThen (h.truth (by simp) (he _ (by simp))) fun first => ?_
  split
  · exact .andThen (h.truth (by simp) (he _ (by simp))) fun _ => .pure trivial
  · exact .pure trivial

theorem either_safe {a b : Node} (h : self.SafeFor stack [a, b]) (he : ∀ n ∈ [a, b], n.Expression) :
    (either self stack a b).Safe Value.Sound := by
  unfold either
  refine .andThen (h.truth (by simp) (he _ (by simp))) fun first => ?_
  split
  · exact .pure trivial
  · exact .andThen (h.truth (by simp) (he _ (by simp))) fun _ => .pure trivial

theorem binary_safe {op : Operator} {a b : Node} (h : self.SafeFor stack [a, b])
    (he : ∀ n ∈ [a, b], n.Expression) (hop : op.isBinary = true) :
    (binary self stack op a b).Safe Value.Sound := by
  unfold binary
  refine .bind (h.value [] (by simp) (he _ (by simp))) fun v _ => ?_
  refine .bind (h.value [v] (by simp) (he _ (by simp))) fun w _ => ?_
  exact .onHeap fun heap => Value.binary_checked hop heap v w

/-- An operator on operands that suit it. -/
theorem run_safe {op : Operator} {args : List Node} (h : self.SafeFor stack args)
    (he : ∀ n ∈ args, n.Expression) (ht : op.takes args = true) :
    (run self stack op args).Safe Value.Sound := by
  obtain ⟨accepts, names⟩ := Bool.and_eq_true_iff.1 ht
  have named := List.all_eq_true.1 names
  unfold run
  rw [if_pos accepts]
  unfold onOperands
  split
  · exact assign_safe h he (named _ (by simp [Operator.nameCount]))
  · exact assignElement_safe h he (named _ (by simp [Operator.nameCount]))
  · refine declare_safe h he (named _ ?_) (named _ ?_) <;> simp [Operator.nameCount]
  · refine declare_safe h he (named _ ?_) (named _ ?_) <;> simp [Operator.nameCount]
  · exact choose_safe h he
  · exact both_safe h he
  · exact either_safe h he
  · exact .andThen (h.truth (by simp) (he _ (by simp))) fun _ => .pure trivial
  · refine .bind (h.value [] (by simp) (he _ (by simp))) fun v _ => ?_
    exact .ofPlain v.negated_checked
  · exact convert_safe h he
  · refine binary_safe h he ?_
    cases op <;> simp_all [Operator.accepts, Operator.arity, Operator.isBinary]
  · next noMatch =>
    -- every count that an operator accepts has a clause above
    exfalso
    rcases args with _ | ⟨a, _ | ⟨b, _ | ⟨c, _ | ⟨d, rest⟩⟩⟩⟩ <;>
      cases op <;> simp_all [Operator.accepts, Operator.arity]

end Operation

/-! ### Calls -/

section Calls

variable {self : Evaluator} {stack : CallStack} {args : List Node}

theorem Console.printAll_safe {parts ns : List Node} (ending : String)
    (h : self.SafeFor stack parts) (hns : ∀ n ∈ ns, n ∈ parts) (he : ∀ n ∈ ns, n.Expression) :
    (printAll self stack ending ns).Safe fun _ => True := by
  induction ns with
  | nil => exact .pure trivial
  | cons n ns ih =>
    unfold printAll
    refine .bind (h.value [] (hns n (by simp)) (he n (by simp))) fun v _ => ?_
    refine .andThen (.display v) fun text => ?_
    refine .andThen (.print _) fun _ => ?_
    exact ih (fun k hk => hns k (by simp [hk])) fun k hk => he k (by simp [hk])

theorem Console.print_safe (ending : String) (h : self.SafeFor stack args)
    (he : ∀ n ∈ args, n.Expression) : (print self stack ending args).Safe Value.Sound := by
  unfold print
  split
  · exact .andThen (.print ending) fun _ => .pure trivial
  · exact .andThen (printAll_safe ending h (fun _ hn => hn) he) fun _ => .pure trivial

theorem Console.readLine_safe : readLine.Safe Value.Sound := by
  unfold readLine
  refine .andThen (.take fun m hm => ⟨hm.of_eq rfl rfl, trivial⟩) fun line => ?_
  refine .andThen (.ofExcept (.mapError (fun _ => trivial) fun _ => rfl)) fun text => ?_
  exact .pure (Guard.sound.plain (Files.isPlain_lineValue text))

theorem Console.input_safe (h : self.SafeFor stack args) (he : ∀ n ∈ args, n.Expression) :
    (input self stack args).Safe Value.Sound := by
  unfold input
  split
  · exact readLine_safe
  · refine .andThen ?_ fun _ => readLine_safe
    refine .bind (h.value [] (by simp) (he _ (by simp))) fun v _ => ?_
    exact .andThen (.display v) fun text => .print text
  · exact .fail (Error.isInternal_argumentCount (by decide) ..)

theorem exchange_safe (h : self.SafeFor stack args) (he : ∀ n ∈ args, n.Expression) :
    (exchange self stack args).Safe Value.Sound := by
  unfold exchange
  split
  · split
    · refine .bind (h.value [] (by simp) (he _ (by simp))) fun v hv => ?_
      refine .bind (h.value [] (by simp) (he _ (by simp))) fun w hw => ?_
      refine .andThen (.update fun m hm => hm.assignShared hw) fun _ => ?_
      exact .andThen (.update fun m hm => hm.assignShared hv) fun _ => .pure trivial
    · exact .fail rfl
  · exact .fail (Error.isInternal_argumentCount (by decide) ..)

/-- A built-in on nodes; operators need operands that suit them. -/
theorem Builtin.call_safe {b : Builtin} (h : self.SafeFor stack args)
    (he : ∀ n ∈ args, n.Expression) (suited : ∀ op, b = .operator op → op.takes args = true) :
    (b.call self stack args).Safe Value.Sound := by
  unfold Builtin.call
  split
  · next r hr =>
    cases b <;> cases hr
    case operator op => exact Operation.run_safe h he (suited op rfl)
    case print => exact Console.print_safe "\n" h he
    case write => exact Console.print_safe "" h he
    case input => exact Console.input_safe h he
    case cls => exact .andThen (.print _) fun _ => .pure trivial
    case swap => exact exchange_safe h he
  · exact .bind (h.values [] (fun _ hn => hn) he) fun vs hvs => b.apply_safe hvs

theorem Closure.call_safe {c : Closure} (h : self.SafeFor stack args)
    (he : ∀ n ∈ args, n.Expression) (hc : (Value.closure c).Sound) :
    (c.call self stack args).Safe Value.Sound := by
  unfold Closure.call
  refine .andThen ?_ fun _ => ?_
  · unfold Closure.checkCount
    split
    · exact .pure trivial
    · exact .fail (Error.isInternal_argumentCount hc.1 ..)
  · exact .bind (h.values [.closure c] (fun _ hn => hn) he) fun vs hvs => h.enter [] hc hvs

theorem Value.element_safe {parts : List Node} {v : Value} {ns : List Node}
    (h : self.SafeFor stack parts) (hns : ∀ n ∈ ns, n ∈ parts) (he : ∀ n ∈ ns, n.Expression)
    (hv : v.Sound) : (Value.element self stack v ns).Safe Value.Sound := by
  induction ns generalizing v with
  | nil => exact .pure hv
  | cons n ns ih =>
    unfold Value.element
    refine .bind (h.value [v] (hns n (by simp)) (he n (by simp))) fun index _ => ?_
    split
    · refine .bind (.sequence _) fun items hi => ?_
      refine .andThen (.ofExcept (index.slot_checked _)) fun place => ?_
      exact ih (fun k hk => hns k (by simp [hk])) (fun k hk => he k (by simp [hk]))
        (sound_getD hi place)
    · exact .fail rfl

/-- A name with arguments: a word, or an operator with operands that suit it. -/
theorem callName_safe {target : String} (h : self.SafeFor stack args)
    (he : ∀ n ∈ args, n.Expression)
    (suited : ∀ v : Value, v.SoundAs (Text.upperCase target) →
      v.Sound ∨ ∃ op serial, v = .builtin (.operator op) serial ∧ op.takes args = true) :
    (callName self stack target args).Safe Value.Sound := by
  unfold callName
  refine .bind (.lookup stack.chain target) fun v hv => ?_
  rcases suited v hv with hv | ⟨op, serial, rfl, ht⟩
  · split
    · exact Builtin.call_safe h he fun op hop => absurd hop (hv op)
    · exact Closure.call_safe h he hv
    · exact Value.element_safe h (fun _ hn => hn) he hv
    · split
      · exact .pure hv
      · exact .fail rfl
  · refine Builtin.call_safe h he fun op' hop => ?_
    cases hop
    exact ht

end Calls

theorem Operator.upperCase_name (op : Operator) : Text.upperCase op.name = op.name := by
  cases op <;> decide

/-- The rule for an expression. -/
theorem Node.Expression.evaluate_safe {n : Node} {self : Evaluator} {stack : CallStack}
    (he : n.Expression) (h : self.SafeFor stack n.children) (turns : Nat) (p : Place) :
    (n.evaluate self turns stack).Safe (Flow.Fits p) := by
  cases he with
  | literal v => exact .pure (Value.sound_ofLiteral v)
  | name word => exact .bind (.lookupWord _ word) fun v hv => .pure hv
  | array elements =>
    refine .bind (P := Value.Sound) ?_ fun v hv => .pure hv
    refine .bind (h.values [] (fun _ hn => hn) elements) fun vs hvs => ?_
    refine .andThen (.allocate ?_) fun _ => .pure trivial
    intro v hv
    exact hvs v (List.mem_toArray.1 hv)
  | call word arguments =>
    refine .bind (P := Value.Sound) ?_ fun v hv => .pure hv
    refine callName_safe h arguments fun v hv => .inl ?_
    exact hv.of_isWord (Text.isWord_upperCase word)
  | @operation op args takes operands =>
    refine .bind (P := Value.Sound) ?_ fun v hv => .pure hv
    refine callName_safe h operands fun v hv => ?_
    rcases hv with hv | ⟨op', serial, rfl, hname⟩
    · exact .inl hv
    · rw [Operator.upperCase_name] at hname
      exact .inr ⟨op', serial, rfl, Operator.name_injective hname ▸ takes⟩

/-! ### Constructs -/

namespace Node

theorem part_construct {c : Control} {head ss : List Node} {tag : String} {i : Nat} {n : Node}
    (h : head[i]? = some n) : (construct c head ss).part i tag = (Pure.pure n : Run Node) := by
  obtain ⟨hi, -⟩ := List.getElem?_eq_some_iff.1 h
  have hget : (construct c head ss).children[i]? = some n := by
    rw [← h]
    exact List.getElem?_append_left hi
  unfold Node.part
  rw [hget]

theorem bodyPart_construct {c : Control} {head ss : List Node} {tag : String}
    (short : head.length < UInt64.size) :
    (construct c head ss).bodyPart tag = (Pure.pure (block ss) : Run Node) := by
  have hsize : (UInt64.ofNat head.length).toNat = head.length := UInt64.toNat_ofNat_of_lt' short
  have hget : (construct c head ss).body? = some (block ss) := by
    simp [body?, construct, bodyIndex, children, hsize]
  unfold bodyPart
  rw [hget]

theorem block_mem_construct (c : Control) (head ss : List Node) :
    block ss ∈ (construct c head ss).children := by
  simp [construct, children]

end Node

section Rules

variable (self : Evaluator) (turns : Nat) (stack : CallStack)

theorem Branch.run_construct (fallback : Bool) (guard : Node) (ss : List Node) :
    run self stack (.construct (.branch fallback) [guard] ss) = (do
      if ← self.truth stack guard then
        match ← self stack (.block ss) with
        | .signal s => return .left s
        | .value _ => return .taken
      else return .skipped) := by
  unfold run
  rw [Node.part_construct rfl, Node.bodyPart_construct (by simp [UInt64.size])]
  rfl

theorem Node.evaluate_whileLoop (guard : Node) (ss : List Node) :
    (construct .whileLoop [guard] ss).evaluate self turns stack =
      Loop.whileTurns self stack guard (.block ss) turns := by
  show Loop.whileLoop self turns stack _ = _
  unfold Loop.whileLoop
  rw [part_construct rfl, bodyPart_construct (by simp [UInt64.size]), Run.pure_bind, Run.pure_bind]

theorem Node.evaluate_doLoop (guard : Node) (ss : List Node) :
    (construct .doLoop [guard] ss).evaluate self turns stack =
      Loop.doTurns self stack guard (.block ss) turns := by
  show Loop.doLoop self turns stack _ = _
  unfold Loop.doLoop
  rw [part_construct rfl, bodyPart_construct (by simp [UInt64.size]), Run.pure_bind, Run.pure_bind]

theorem Node.evaluate_forLoop (counter : String) (start limit step : Node) (ss : List Node) :
    (construct (.forLoop counter) [start, limit, step] ss).evaluate self turns stack = (do
      let v ← self.value stack start
      Loop.setCounter stack counter v
      Loop.forTurns self stack counter limit step (.block ss) turns) := by
  show Loop.forLoop self turns stack counter _ = _
  unfold Loop.forLoop
  rw [part_construct rfl, part_construct rfl, part_construct rfl,
    bodyPart_construct (by simp [UInt64.size])]
  simp only [Run.pure_bind]

end Rules

section Constructs

variable {self : Evaluator} {stack : CallStack} {parts : List Node} {p : Place}

theorem Statements.all_safe {ns : List Node} (h : self.SafeFor stack parts)
    (hns : ∀ n ∈ ns, n ∈ parts) (fit : ∀ n ∈ ns, n.Fits .top) :
    (all self stack ns).Safe (Flow.Fits p) := by
  induction ns with
  | nil => exact .pure trivial
  | cons n ns ih =>
    unfold all
    refine .bind (h.part n (hns n (by simp)) .top (fit n (by simp))) fun _ _ => ?_
    exact ih (fun k hk => hns k (by simp [hk])) fun k hk => fit k (by simp [hk])

theorem Statements.block_safe {ns : List Node} (h : self.SafeFor stack parts)
    (hns : ∀ n ∈ ns, n ∈ parts) (fit : ∀ n ∈ ns, n.Fits p) :
    (block self stack ns).Safe (Flow.Fits p) := by
  induction ns with
  | nil => exact .pure trivial
  | cons n ns ih =>
    unfold block
    refine .bind (h.part n (hns n (by simp)) p (fit n (by simp))) fun f hf => ?_
    split
    · exact .pure hf
    · exact ih (fun k hk => hns k (by simp [hk])) fun k hk => fit k (by simp [hk])

/-- The ends of a branch that its place takes. -/
def Branch.Fits (p : Place) : Branch → Prop
  | .left s => (Flow.signal s).Fits p
  | _ => True

/-- A branch, with its guard and its body among the parts. -/
theorem Branch.run_safe {fallback : Bool} {guard : Node} {ss : List Node}
    (h : self.SafeFor stack parts)
    (hparts : ∀ n ∈ (Node.construct (.branch fallback) [guard] ss).children, n ∈ parts)
    (guarded : guard.Expression) (body : (Node.block ss).Fits p) :
    (run self stack (.construct (.branch fallback) [guard] ss)).Safe (Branch.Fits p) := by
  rw [run_construct]
  have hguard : guard ∈ parts := hparts guard (by simp [Node.construct, Node.children])
  refine .andThen (h.truth hguard guarded) fun b => ?_
  split
  · refine .bind (h.part _ (hparts _ (Node.block_mem_construct ..)) p body) fun f hf => ?_
    split
    · exact .pure hf
    · exact .pure trivial
  · exact .pure trivial

theorem Branch.alone_safe {n : Node} (h : (run self stack n).Safe (Branch.Fits p)) :
    (alone self stack n).Safe (Flow.Fits p) := by
  unfold alone
  refine .bind h fun b hb => ?_
  split
  · exact .pure hb
  · exact .pure trivial

theorem Branch.chain_safe {ns : List Node}
    (h : ∀ n ∈ ns, (run self stack n).Safe (Branch.Fits p)) :
    (chain self stack ns).Safe (Flow.Fits p) := by
  induction ns with
  | nil => exact .pure trivial
  | cons n ns ih =>
    unfold chain
    refine .bind (h n (by simp)) fun b hb => ?_
    split
    · exact ih fun k hk => h k (by simp [hk])
    · exact .pure trivial
    · exact .pure hb

namespace Loop

theorem left?_fits {f g : Flow} (hf : f.Fits p.loop) (h : left? f = some g) : g.Fits p := by
  unfold left? at h
  split at h
  · cases h
    trivial
  · cases h
    exact hf
  · cases h

theorem whileTurns_safe {guard body : Node} (hguard : (self.truth stack guard).Safe fun _ => True)
    (hbody : (self stack body).Safe (Flow.Fits p.loop)) (turns : Nat) :
    (whileTurns self stack guard body turns).Safe (Flow.Fits p) := by
  induction turns with
  | zero => exact .exhausted
  | succ turns ih =>
    unfold whileTurns
    refine .andThen hguard fun b => ?_
    split
    · refine .bind hbody fun f hf => ?_
      split
      · next g hg => exact .pure (left?_fits hf hg)
      · exact ih
    · exact .pure trivial

theorem doTurns_safe {guard body : Node} (hguard : (self.truth stack guard).Safe fun _ => True)
    (hbody : (self stack body).Safe (Flow.Fits p.loop)) (turns : Nat) :
    (doTurns self stack guard body turns).Safe (Flow.Fits p) := by
  induction turns with
  | zero => exact .exhausted
  | succ turns ih =>
    unfold doTurns
    refine .bind hbody fun f hf => ?_
    split
    · next g hg => exact .pure (left?_fits hf hg)
    · refine .andThen hguard fun b => ?_
      split
      · exact ih
      · exact .pure trivial

theorem passed_checked (counter limit step : Value) :
    Checked (fun _ => True) (passed counter limit step) := by
  unfold passed
  split
  · trivial
  · split <;> trivial

theorem setCounter_safe (counter : String) {v : Value} (hv : v.Sound) :
    (setCounter stack counter v).Safe fun _ => True :=
  .update fun _ hm => hm.assignShared hv

theorem advance_safe (counter : String) (step : Value) :
    (advance stack counter step).Safe fun _ => True := by
  unfold advance
  refine .bind (.lookup stack.chain counter) fun current _ => ?_
  refine .bind (.onHeap fun heap => Value.binary_checked rfl heap current step) fun next hnext => ?_
  exact setCounter_safe counter hnext

theorem forTurns_safe {counter : String} {limit step body : Node}
    (hlimit : ∀ held, (self.value (stack.hold held) limit).Safe Value.Sound)
    (hstep : ∀ held, (self.value (stack.hold held) step).Safe Value.Sound)
    (hbody : (self stack body).Safe (Flow.Fits p.loop)) (turns : Nat) :
    (forTurns self stack counter limit step body turns).Safe (Flow.Fits p) := by
  induction turns with
  | zero => exact .exhausted
  | succ turns ih =>
    unfold forTurns
    refine .bind (.lookup stack.chain counter) fun current _ => ?_
    refine .bind (hlimit _) fun bound _ => ?_
    refine .bind (hstep _) fun increment _ => ?_
    refine .andThen (.ofExcept (passed_checked current bound increment)) fun beyond => ?_
    split
    · exact .pure trivial
    · refine .bind hbody fun f hf => ?_
      split
      · next g hg => exact .pure (left?_fits hf hg)
      · exact .andThen (advance_safe counter increment) fun _ => ih

end Loop

theorem includeUnit_safe (what : Inclusion) : (includeUnit stack what).Safe (Flow.Fits p) := by
  unfold includeUnit
  split
  · split
    · exact .andThen (.update fun m hm => hm.install _) fun _ => .pure trivial
    · exact .fail rfl
  · rw [← Run.upholds_sound]
    exact .andThen (Run.settle_upholds stack) fun _ => runScript_upholds trivial _

theorem defineClosure_safe {n : Node} {tag name : String} {params : List String} {ss : List Node}
    (hn : n.bodyPart tag = (Pure.pure (Node.block ss) : Run Node))
    (word : Text.isWord name = true) (body : (Node.block ss).Fits .call) :
    (defineClosure stack n tag name params).Safe (Flow.Fits p) := by
  unfold defineClosure
  rw [hn, Run.pure_bind]
  refine .andThen (.take fun m hm => ⟨hm.of_eq rfl rfl, trivial⟩) fun serial => ?_
  exact .andThen (.update fun m hm => hm.define ⟨word, body⟩) fun _ => .pure trivial

end Constructs

/-! ### The evaluator -/

/-- The nodes that the rule for a node evaluates where it stands: its children, and for a chain the
guards and bodies of its branches. The body of a closure waits for a call. -/
def Node.parts (n : Node) : List Node :=
  match n.kind with
  | .control .chain => n.children.flatMap children
  | .control (.subroutine _ _) => []
  | .control (.function _ _) => []
  | _ => n.children

theorem Node.isChain_branch {bs : List Node} (h : isChain bs = true) {b : Node} (hb : b ∈ bs) :
    b.kind = .control (.branch false) ∨ b.kind = .control (.branch true) := by
  simp only [isChain, Bool.and_eq_true, List.all_eq_true, Bool.or_eq_true] at h
  simpa [isBranch] using h.2 b hb

theorem Node.Fits.of_branch {p : Place} {b : Node} (h : b.Fits p)
    (hb : b.kind = .control (.branch false) ∨ b.kind = .control (.branch true)) :
    ∃ fallback guard ss, b = .construct (.branch fallback) [guard] ss ∧ guard.Expression ∧
      (Node.block ss).Fits p := by
  cases h with
  | branch guarded body => exact ⟨_, _, _, rfl, guarded, body⟩
  | expression he => cases he <;> simp [literal, ofName, array, call, operation, leaf, kind] at hb
  | @closure _ closureKind =>
    cases closureKind <;> simp [construct, kind, ClosureKind.control] at hb
  | jump j => cases j <;> simp [Jump.node, plain, kind] at hb
  | _ => simp [Node.block, plain, construct, Node.program, kind] at hb

theorem Node.Expression.parts_eq {n : Node} (he : n.Expression) : n.parts = n.children := by
  cases he <;> rfl

/-- One rule is safe if the parts of the node and the closures that it calls are. -/
theorem Node.evaluate_safe {p : Place} {n : Node} {self : Evaluator} {stack : CallStack}
    (fit : n.Fits p) (h : self.SafeFor stack n.parts) (turns : Nat) :
    (n.evaluate self turns stack).Safe (Flow.Fits p) := by
  cases fit with
  | expression he => exact he.evaluate_safe (he.parts_eq ▸ h) turns p
  | block statements => exact Statements.block_safe h (fun _ hn => hn) statements
  | branch guarded body =>
    exact Branch.alone_safe (Branch.run_safe h (fun _ hn => hn) guarded body)
  | chain chained branches =>
    refine Branch.chain_safe fun b hb => ?_
    obtain ⟨fallback, guard, ss, rfl, guarded, body⟩ :=
      (branches b hb).of_branch (isChain_branch chained hb)
    exact Branch.run_safe h (fun n hn => List.mem_flatMap.2 ⟨_, hb, hn⟩) guarded body
  | @whileLoop _ guard ss guarded body =>
    rw [evaluate_whileLoop]
    refine Loop.whileTurns_safe (h.truth ?_ guarded) (h.part _ ?_ _ body) turns
    all_goals simp [parts, construct, kind, children]
  | @doLoop _ guard ss guarded body =>
    rw [evaluate_doLoop]
    refine Loop.doTurns_safe (h.truth ?_ guarded) (h.part _ ?_ _ body) turns
    all_goals simp [parts, construct, kind, children]
  | @forLoop _ counter start limit step ss started limited stepped body =>
    rw [evaluate_forLoop]
    refine .bind (h.value [] ?_ started) fun v hv => ?_
    · simp [parts, construct, kind, children]
    refine .andThen (Loop.setCounter_safe counter hv) fun _ => ?_
    refine Loop.forTurns_safe (fun held => h.value held ?_ limited)
      (fun held => h.value held ?_ stepped) (h.part _ ?_ _ body) turns
    all_goals simp [parts, construct, kind, children]
  | @closure _ closureKind name params ss word distinct body =>
    cases closureKind <;>
      exact defineClosure_safe (bodyPart_construct (by simp [UInt64.size])) word body
  | jump j inLoop => cases j <;> exact .pure inLoop
  | @returned _ value inCall valued =>
    cases value with
    | none => exact .pure ⟨inCall, trivial⟩
    | some e =>
      refine .bind (h.value [] ?_ (valued e rfl)) fun v hv => .pure ⟨inCall, hv⟩
      simp [parts, plain, kind, children]
  | inclusion what => exact includeUnit_safe what
  | program statements => exact Statements.all_safe h (fun _ hn => hn) statements

/-- The evaluator is safe on trees that the rules build. -/
theorem eval_safe (fuel : Nat) {p : Place} {n : Node} (fit : n.Fits p) (stack : CallStack) :
    (eval fuel stack n).Safe (Flow.Fits p) := by
  induction fuel generalizing p n stack with
  | zero => exact .exhausted
  | succ fuel ih =>
    rw [eval_succ]
    refine Node.evaluate_safe fit ⟨fun c _ q hc => ih hc stack, fun held c _ he => ?_,
      fun held c args hc m hm => ?_⟩ fuel
    · exact ih (.expression he) _
    exact ih hc.sound.2 _ _ (hm.newScope (.ofArguments hc.arguments))

/-! ### Programs of source text -/

/-- A program whose pieces can all be read is well formed. Whatever the disk, the input and the
number of calls allowed, running it on a fresh machine does not end in an internal error. -/
theorem program_sound {catalog : Catalog} {pieces : List String} {tree : Node}
    (read : Reader.program? catalog pieces = some tree) :
    tree.WellFormed ∧ ∀ fuel limit world disk input e m,
      eval fuel (.bottom limit) tree (.fresh world disk input) = .failure e m →
      e.isInternal = false := by
  obtain ⟨statements, rfl, fit⟩ := Reader.program?_fits read
  have whole : (Node.program statements).Fits .top := .program fit
  refine ⟨whole.wellFormed, fun fuel limit world disk input e m hrun => ?_⟩
  have safe := eval_safe fuel whole (.bottom limit) _ (Machine.sound_fresh world disk input)
  rw [hrun] at safe
  exact safe.2

/-- A program in two pieces that uses a module inside a construct which the second piece closes. -/
theorem program_sound_across_pieces :
    ∃ tree,
      Reader.program? [("PART", .ok (.source "part.bas" "IF A = 3 THEN\nEXIT WHILE"))]
        ["SUB F(A, B)\nWHILE A < B\nUSE PART", "END IF\nA = A + 1\nWEND\nEND SUB\nF(1, 9)"] =
          some tree ∧
      tree.WellFormed ∧ ∀ fuel limit world disk input e m,
        eval fuel (.bottom limit) tree (.fresh world disk input) = .failure e m →
          e.isInternal = false := by
  have read : (Reader.program? [("PART", .ok (.source "part.bas" "IF A = 3 THEN\nEXIT WHILE"))]
      ["SUB F(A, B)\nWHILE A < B\nUSE PART",
        "END IF\nA = A + 1\nWEND\nEND SUB\nF(1, 9)"]).isSome = true := by
    decide +kernel
  obtain ⟨tree, htree⟩ := Option.isSome_iff_exists.1 read
  exact ⟨tree, htree, program_sound htree⟩

end LineBasic
