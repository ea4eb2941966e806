import LineBasic.Proofs.Moments

/-!
# What an evaluation depends on

The rule for a node depends on the evaluation of other nodes at the moments that it asks for, and at
no others: an answer that is not asked for can be exchanged without any effect.

* `attends_callName` and the lemmas before it : the rules for calls and operators.
* `Node.attends_evaluate` : the rule for any node, whatever its shape.
* `Moment.asks_or_ignores` : one moment asks for another, or its end does not depend on it.
-/

namespace LineBasic

section Rules

variable {self : Evaluator} {q : Moment} {stack : CallStack}

/-! ### Calls -/

theorem attends_values (stack : CallStack) (ns : List Node) :
    Attends self q fun ev => ev.values stack ns := by
  induction ns generalizing stack with
  | nil => exact attends_const _
  | cons n ns ih =>
    exact (attends_value stack n).bind fun v => (ih _).bind fun vs => attends_const _

theorem Closure.attends_enter (stack : CallStack) (c : Closure) (args : List Value) :
    Attends self q fun ev => c.enter ev stack args := by
  refine (attends_const (c.checkCount args.length)).bind fun _ => ?_
  cases stack.isFull with
  | true => exact attends_const _
  | false =>
    refine (attends_const (Run.take _)).bind fun id => ?_
    exact (attends_ask _ c.body).bind fun f => attends_const _

theorem Closure.attends_call (c : Closure) (args : List Node) :
    Attends self q fun ev => c.call ev stack args := by
  refine (attends_const (c.checkCount args.length)).bind fun _ => ?_
  exact (attends_values _ args).bind fun vs => c.attends_enter stack vs

/-- A value applied to arguments, if it can be. -/
theorem Value.attends_application {α : Type} (t : Value)
    {G : Evaluator → (CallStack → List Value → Run Value) → Run α} {r : Run α}
    (hG : ∀ apply : Evaluator → CallStack → List Value → Run Value,
      (∀ stack args, Attends self q fun ev => apply ev stack args) →
        Attends self q fun ev => G ev (apply ev)) :
    Attends self q fun ev =>
      match t.application? ev with
      | some apply => G ev apply
      | none => r := by
  cases t with
  | closure c => exact hG _ fun stack args => c.attends_enter stack args
  | builtin b serial => exact hG _ fun stack args => attends_const _
  | _ => exact attends_const r

theorem Value.attends_element (v : Value) (ns : List Node) :
    Attends self q fun ev => v.element ev stack ns := by
  induction ns generalizing v with
  | nil => exact attends_const _
  | cons n ns ih =>
    refine (attends_value _ n).bind fun index => ?_
    cases v with
    | array id =>
      refine (attends_const (Run.read _)).bind fun items => ?_
      exact (attends_const (Run.ofExcept _)).bind fun place => ih _
    | _ => exact attends_const _

/-! ### Operators -/

namespace Operation

theorem attends_assign (target e : Node) : Attends self q fun ev => assign ev stack target e := by
  refine (attends_const (nameOf _ target)).bind fun name => ?_
  exact (attends_value stack e).bind fun v => attends_const _

theorem attends_assignElement (target index e : Node) :
    Attends self q fun ev => assignElement ev stack target index e := by
  refine (attends_const (nameOf _ target)).bind fun name => ?_
  refine (attends_value stack index).bind fun i => ?_
  exact (attends_value _ e).bind fun v => attends_const _

theorem attends_collect {make : Evaluator → CallStack → Run Value}
    (hmake : ∀ stack, Attends self q fun ev => make ev stack) (count : Nat) (items : Array Value) :
    Attends self q fun ev => collect stack (make ev) count items := by
  induction count generalizing items with
  | zero => exact attends_const _
  | succ count ih => exact (hmake _).bind fun v => ih _

theorem attends_initial {make : Evaluator → CallStack → Run Value}
    (hmake : ∀ stack, Attends self q fun ev => make ev stack) (stack : CallStack)
    (count : Option Node) :
    Attends self q fun ev => initial ev stack (make ev) count := by
  cases count with
  | none => exact hmake stack
  | some n =>
    refine (attends_value stack n).bind fun v => ?_
    refine (attends_const (Run.read _)).bind fun heap => ?_
    refine (attends_const (Run.ofExcept _)).bind fun k => ?_
    exact (attends_collect hmake k #[]).bind fun items => attends_const _

theorem attends_declare (target type : Node) (count : Option Node) :
    Attends self q fun ev => declare ev stack target type count := by
  refine (attends_const (nameOf _ target)).bind fun name => ?_
  refine (attends_const (nameOf _ type)).bind fun typeName => ?_
  refine (attends_const (Run.lookup _ typeName)).bind fun t => ?_
  refine t.attends_application fun make hmake => ?_
  exact (attends_initial (fun stack => hmake stack []) _ count).bind fun v => attends_const _

theorem attends_typeOf (stack : CallStack) (n : Node) :
    Attends self q fun ev => typeOf ev stack n := by
  unfold typeOf
  cases n.name? with
  | some name => exact attends_const _
  | none => exact attends_value stack n

theorem attends_convert (e type : Node) : Attends self q fun ev => convert ev stack e type := by
  refine (attends_value stack e).bind fun v => ?_
  refine (attends_typeOf _ type).bind fun t => ?_
  exact t.attends_application fun apply happly => happly stack [v]

theorem attends_choose (guard yes no : Node) :
    Attends self q fun ev => choose ev stack guard yes no := by
  refine (attends_truth stack guard).bind fun b => ?_
  cases b with
  | true => exact attends_value stack yes
  | false => exact attends_value stack no

theorem attends_both (a b : Node) : Attends self q fun ev => both ev stack a b := by
  refine (attends_truth stack a).bind fun first => ?_
  cases first with
  | true => exact (attends_truth stack b).bind fun second => attends_const _
  | false => exact attends_const _

theorem attends_either (a b : Node) : Attends self q fun ev => either ev stack a b := by
  refine (attends_truth stack a).bind fun first => ?_
  cases first with
  | true => exact attends_const _
  | false => exact (attends_truth stack b).bind fun second => attends_const _

theorem attends_binary (op : Operator) (a b : Node) :
    Attends self q fun ev => binary ev stack op a b :=
  (attends_value stack a).bind fun _ => (attends_value _ b).bind fun _ => attends_const _

theorem attends_onOperands (op : Operator) (args : List Node) :
    Attends self q fun ev => onOperands ev stack op args := by
  -- only for a few operators does the count of the operands decide what is done
  rcases args with _ | ⟨a, _ | ⟨b, _ | ⟨c, _ | ⟨d, rest⟩⟩⟩⟩
  · cases op <;> exact attends_const _
  · cases op
    case not => exact (attends_truth stack a).bind fun _ => attends_const _
    case negate => exact (attends_value stack a).bind fun _ => attends_const _
    all_goals exact attends_const _
  · cases op
    case assign => exact attends_assign a b
    case declare => exact attends_declare a b none
    case and => exact attends_both a b
    case or => exact attends_either a b
    case convert => exact attends_convert a b
    all_goals exact attends_binary _ a b
  · cases op
    case assignElement => exact attends_assignElement a b c
    case declare => exact attends_declare a b (some c)
    case choose => exact attends_choose a b c
    all_goals exact attends_const _
  · cases op <;> exact attends_const _

theorem attends_run (op : Operator) (args : List Node) :
    Attends self q fun ev => run ev stack op args := by
  unfold run
  cases op.accepts args.length with
  | true => exact attends_onOperands op args
  | false => exact attends_const _

end Operation

/-! ### Built-ins and names -/

theorem Console.attends_printAll (ending : String) (args : List Node) :
    Attends self q fun ev => printAll ev stack ending args := by
  induction args with
  | nil => exact attends_const _
  | cons n ns ih =>
    refine (attends_value stack n).bind fun v => ?_
    refine (attends_const (Run.display v)).bind fun text => ?_
    exact (attends_const (Run.print _)).bind fun _ => ih

theorem Console.attends_print (ending : String) (args : List Node) :
    Attends self q fun ev => print ev stack ending args := by
  unfold print
  cases args.isEmpty with
  | true => exact attends_const _
  | false => exact (attends_printAll ending args).bind fun _ => attends_const _

theorem Console.attends_input (args : List Node) :
    Attends self q fun ev => input ev stack args := by
  rcases args with _ | ⟨question, _ | ⟨n, ns⟩⟩
  · exact attends_const _
  · refine Attends.bind ?_ fun _ => attends_const _
    exact (attends_value stack question).bind fun v => attends_const _
  · exact attends_const _

theorem attends_exchange (args : List Node) : Attends self q fun ev => exchange ev stack args := by
  rcases args with _ | ⟨a, _ | ⟨b, _ | ⟨c, rest⟩⟩⟩
  · exact attends_const _
  · exact attends_const _
  · simp only [exchange]
    cases a.name? with
    | none => exact attends_const _
    | some x =>
      cases b.name? with
      | none => exact attends_const _
      | some y =>
        exact (attends_value stack a).bind fun v =>
          (attends_value stack b).bind fun w => attends_const _
  · exact attends_const _

theorem Builtin.attends_call (b : Builtin) (args : List Node) :
    Attends self q fun ev => b.call ev stack args := by
  cases b
  case operator op => exact Operation.attends_run op args
  case print => exact Console.attends_print "\n" args
  case write => exact Console.attends_print "" args
  case input => exact Console.attends_input args
  case cls => exact attends_const _
  case swap => exact attends_exchange args
  all_goals exact (attends_values stack args).bind fun vs => attends_const _

theorem attends_callName (target : String) (args : List Node) :
    Attends self q fun ev => callName ev stack target args := by
  refine (attends_const (Run.lookup _ target)).bind fun v => ?_
  cases v with
  | builtin b serial => exact b.attends_call args
  | closure c => exact c.attends_call args
  | array id => exact Value.attends_element _ args
  | _ => exact attends_const _

/-! ### Constructs -/

theorem Statements.attends_all (ns : List Node) : Attends self q fun ev => all ev stack ns := by
  induction ns with
  | nil => exact attends_const _
  | cons n ns ih => exact (attends_ask stack n).bind fun _ => ih

theorem Statements.attends_block (ns : List Node) : Attends self q fun ev => block ev stack ns := by
  induction ns with
  | nil => exact attends_const _
  | cons n ns ih =>
    refine (attends_ask stack n).bind fun f => ?_
    cases f with
    | signal s => exact attends_const _
    | value v => exact ih

theorem Branch.attends_run (n : Node) : Attends self q fun ev => run ev stack n := by
  refine (attends_const (n.part 0 "IF")).bind fun guard => ?_
  refine (attends_truth stack guard).bind fun b => ?_
  cases b with
  | false => exact attends_const _
  | true =>
    refine (attends_const (n.bodyPart "IF")).bind fun body => ?_
    exact (attends_ask stack body).bind fun f => attends_const _

theorem Branch.attends_alone (n : Node) : Attends self q fun ev => alone ev stack n :=
  (attends_run n).bind fun _ => attends_const _

theorem Branch.attends_chain (ns : List Node) : Attends self q fun ev => chain ev stack ns := by
  induction ns with
  | nil => exact attends_const _
  | cons n ns ih =>
    refine (attends_run n).bind fun b => ?_
    cases b with
    | skipped => exact ih
    | taken => exact attends_const _
    | left s => exact attends_const _

namespace Loop

theorem attends_whileTurns (guard body : Node) (turns : Nat) :
    Attends self q fun ev => whileTurns ev stack guard body turns := by
  induction turns with
  | zero => exact attends_const _
  | succ turns ih =>
    refine (attends_truth stack guard).bind fun b => ?_
    cases b with
    | false => exact attends_const _
    | true =>
      refine (attends_ask stack body).bind fun f => ?_
      cases left? f with
      | some g => exact attends_const _
      | none => exact ih

theorem attends_doTurns (guard body : Node) (turns : Nat) :
    Attends self q fun ev => doTurns ev stack guard body turns := by
  induction turns with
  | zero => exact attends_const _
  | succ turns ih =>
    refine (attends_ask stack body).bind fun f => ?_
    cases left? f with
    | some g => exact attends_const _
    | none =>
      refine (attends_truth stack guard).bind fun b => ?_
      cases b with
      | false => exact attends_const _
      | true => exact ih

theorem attends_forTurns (counter : String) (limit step body : Node) (turns : Nat) :
    Attends self q fun ev => forTurns ev stack counter limit step body turns := by
  induction turns with
  | zero => exact attends_const _
  | succ turns ih =>
    refine (attends_const (Run.lookup _ counter)).bind fun current => ?_
    refine (attends_value _ limit).bind fun bound => ?_
    refine (attends_value _ step).bind fun increment => ?_
    refine (attends_const (Run.ofExcept _)).bind fun beyond => ?_
    cases beyond with
    | true => exact attends_const _
    | false =>
      refine (attends_ask stack body).bind fun f => ?_
      cases left? f with
      | some g => exact attends_const _
      | none => exact (attends_const (advance stack counter increment)).bind fun _ => ih

theorem attends_whileLoop (n : Node) (turns : Nat) :
    Attends self q fun ev => whileLoop ev turns stack n := by
  refine (attends_const (n.part 0 "WHILE")).bind fun guard => ?_
  exact (attends_const (n.bodyPart "WHILE")).bind fun body => attends_whileTurns guard body turns

theorem attends_doLoop (n : Node) (turns : Nat) :
    Attends self q fun ev => doLoop ev turns stack n := by
  refine (attends_const (n.part 0 "DO")).bind fun guard => ?_
  exact (attends_const (n.bodyPart "DO")).bind fun body => attends_doTurns guard body turns

theorem attends_forLoop (counter : String) (n : Node) (turns : Nat) :
    Attends self q fun ev => forLoop ev turns stack counter n := by
  refine (attends_const (n.part 0 "FOR")).bind fun start => ?_
  refine (attends_const (n.part 1 "FOR")).bind fun limit => ?_
  refine (attends_const (n.part 2 "FOR")).bind fun step => ?_
  refine (attends_const (n.bodyPart "FOR")).bind fun body => ?_
  refine (attends_value stack start).bind fun v => ?_
  exact (attends_const (setCounter stack counter v)).bind fun _ =>
    attends_forTurns counter limit step body turns

end Loop

theorem attends_leaveCall (ns : List Node) : Attends self q fun ev => leaveCall ev stack ns := by
  cases ns with
  | nil => exact attends_const _
  | cons n ns => exact (attends_value stack n).bind fun v => attends_const _

theorem Control.attends_evaluate (c : Control) (turns : Nat) (n : Node) :
    Attends self q fun ev => c.evaluate ev turns stack n := by
  cases c with
  | program => exact Statements.attends_all n.children
  | block => exact Statements.attends_block n.children
  | chain => exact Branch.attends_chain n.children
  | branch fallback => exact Branch.attends_alone n
  | whileLoop => exact Loop.attends_whileLoop n turns
  | doLoop => exact Loop.attends_doLoop n turns
  | forLoop counter => exact Loop.attends_forLoop counter n turns
  | returned => exact attends_leaveCall n.children
  | _ => exact attends_const _

/-- The rule for a node evaluates a node at a moment, or the answer there does not matter to it. -/
theorem Node.attends_evaluate (n : Node) (turns : Nat) :
    Attends self q fun ev => n.evaluate ev turns stack := by
  unfold Node.evaluate
  cases n.kind with
  | literal l => exact attends_const _
  | name s => exact attends_const _
  | array =>
    refine Attends.bind ?_ fun _ => attends_const _
    exact (attends_values stack n.children).bind fun vs => attends_const _
  | call target => exact (attends_callName target n.children).bind fun v => attends_const _
  | control c => exact c.attends_evaluate turns n

end Rules

/-- What is not asked for has no influence. -/
theorem Moment.asks_or_ignores {p q : Moment} (h : p.fuel = q.fuel + 1) :
    p.Asks q ∨ ∀ o, p.outcomeIf q o = p.outcome := by
  rcases p.node.attends_evaluate q.fuel p.machine with hask | hfree
  · exact .inl ⟨h, hask⟩
  · right
    intro o
    rw [outcome, h, eval_succ]
    exact hfree o

end LineBasic
