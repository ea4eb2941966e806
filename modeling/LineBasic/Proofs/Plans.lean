import LineBasic.Proofs.Sound

/-!
# Rules as plans

The rule for a node does things to the machine on its own, evaluates parts of the node, and calls
functions of the program. A `Plan` says in which order, and how it goes on after each of these. It
does not say how parts are evaluated or what becomes of the calls under way, so that this can be
looked at from more than one side.

* `Plan` : what a rule does; `Plan.run` : the run that follows a plan under a call stack.
* `Planned` : a rule together with a plan that it follows, closed under `bind`.
* `Planned.evaluate` : the plan of the rule for any node, whatever its shape.
-/

namespace LineBasic

namespace Run

theorem bind_pure {α : Type} (r : Run α) : (r >>= Pure.pure) = r := by
  funext m
  rw [bind_apply]
  cases r m <;> rfl

theorem bind_assoc {α β γ : Type} (r : Run α) (f : α → Run β) (g : β → Run γ) :
    ((r >>= f) >>= g) = r >>= fun a => f a >>= g := by
  funext m
  simp only [bind_apply]
  cases r m <;> rfl

end Run

/-- What a rule does. -/
inductive Plan (α : Type) : Type 1 where
  | done (a : α)
  /-- Something done to the machine; names are looked up in the chain of the innermost call. -/
  | own {β : Type} (r : Chain → Run β) (next : β → Plan α)
  /-- What was dropped is written out, while some values are kept aside. -/
  | settle (held : List Value) (next : Plan α)
  /-- A node evaluated under the same calls, while some values are kept aside. -/
  | part (held : List Value) (n : Node) (next : Flow → Plan α)
  /-- A function of the program applied to values, while others are kept aside. -/
  | call (held : List Value) (c : Closure) (args : List Value) (next : Value → Plan α)

namespace Plan

variable {α β : Type}

/-- One plan after another. -/
def bind : Plan α → (α → Plan β) → Plan β
  | done a, f => f a
  | own r next, f => own r fun b => (next b).bind f
  | settle held next, f => settle held (next.bind f)
  | part held n next, f => part held n fun flow => (next flow).bind f
  | call held c args next, f => call held c args fun v => (next v).bind f

/-- A plan followed while further values are kept aside. -/
def hold (vs : List Value) : Plan α → Plan α
  | done a => done a
  | own r next => own r fun b => (next b).hold vs
  | settle held next => settle (held ++ vs) (next.hold vs)
  | part held n next => part (held ++ vs) n fun flow => (next flow).hold vs
  | call held c args next => call (held ++ vs) c args fun v => (next v).hold vs

/-- The run that follows a plan. -/
def run (self : Evaluator) (stack : CallStack) : Plan α → Run α
  | done a => return a
  | own r next => r stack.chain >>= fun b => (next b).run self stack
  | settle held next => Run.settle (stack.hold held) >>= fun _ => next.run self stack
  | part held n next => self (stack.hold held) n >>= fun flow => (next flow).run self stack
  | call held c args next =>
    c.enter self (stack.hold held) args >>= fun v => (next v).run self stack

theorem run_bind (self : Evaluator) (stack : CallStack) (p : Plan α) (f : α → Plan β) :
    (p.bind f).run self stack = p.run self stack >>= fun a => (f a).run self stack := by
  induction p with
  | done a => simp only [bind, run, Run.pure_bind]
  | own r next ih => simp only [bind, run, ih, Run.bind_assoc]
  | settle held next ih => simp only [bind, run, ih, Run.bind_assoc]
  | part held n next ih => simp only [bind, run, ih, Run.bind_assoc]
  | call held c args next ih => simp only [bind, run, ih, Run.bind_assoc]

theorem run_hold (self : Evaluator) (stack : CallStack) (vs : List Value) (p : Plan α) :
    (p.hold vs).run self stack = p.run self (stack.hold vs) := by
  induction p with
  | done a => rfl
  | own r next ih => simp only [hold, run, ih, CallStack.hold_chain]
  | settle held next ih => simp only [hold, run, ih, CallStack.hold_hold]
  | part held n next ih => simp only [hold, run, ih, CallStack.hold_hold]
  | call held c args next ih => simp only [hold, run, ih, CallStack.hold_hold]

end Plan

/-- A rule that follows a plan, whatever evaluates the parts and whatever calls are under way. -/
structure Planned {α : Type} (G : Evaluator → CallStack → Run α) : Type 1 where
  plan : Plan α
  runs : ∀ self stack, plan.run self stack = G self stack

namespace Planned

section Combinators

variable {α β : Type} {G : Evaluator → CallStack → Run α} {H : Evaluator → CallStack → α → Run β}

/-- Something done to the machine in the innermost chain. -/
def own (r : Chain → Run α) : Planned fun _ stack => r stack.chain :=
  ⟨.own r .done, fun _ stack => Run.bind_pure (r stack.chain)⟩

/-- Something that is done in the same way under all calls. -/
def const (r : Run α) : Planned fun _ _ => r := own fun _ => r

/-- What was dropped is written out. -/
def settle (held : List Value) : Planned fun _ stack => Run.settle (stack.hold held) :=
  ⟨.settle held (.done ()), fun _ stack => Run.bind_pure (Run.settle (stack.hold held))⟩

/-- A node evaluated under the same calls. -/
def part (n : Node) : Planned fun self stack => self stack n :=
  ⟨.part [] n .done, fun self stack => Run.bind_pure (self stack n)⟩

/-- A function of the program applied to values. -/
def call (c : Closure) (args : List Value) : Planned fun self stack => c.enter self stack args :=
  ⟨.call [] c args .done, fun self stack => Run.bind_pure (c.enter self stack args)⟩

/-- A rule followed while values are kept aside. -/
def hold (vs : List Value) (p : Planned G) : Planned fun self stack => G self (stack.hold vs) where
  plan := p.plan.hold vs
  runs self stack := by rw [Plan.run_hold, p.runs]

/-- One rule after another. -/
def bind (p : Planned G) (q : ∀ a, Planned fun self stack => H self stack a) :
    Planned fun self stack => G self stack >>= H self stack where
  plan := p.plan.bind fun a => (q a).plan
  runs self stack := by
    rw [Plan.run_bind, p.runs]
    congr 1
    funext a
    exact (q a).runs self stack

/-- One of two rules. -/
def ite {K : Evaluator → CallStack → Run α} (b : Bool) (p : Planned G) (q : Planned K) :
    Planned fun self stack => if b then G self stack else K self stack :=
  match b with
  | true => p
  | false => q

end Combinators

/-! ### Expressions and calls

From here on there is a plan for each rule, and the type of the plan names the rule. The end of a
rule that only works on the machine is one step of its plan. -/

def value (n : Node) : Planned fun self stack => self.value stack n :=
  (part n).bind fun flow => const (return flow.result)

def truth (n : Node) : Planned fun self stack => self.truth stack n :=
  (value n).bind fun _ => const _

def values : ∀ ns : List Node, Planned fun self stack => self.values stack ns
  | [] => const _
  | n :: ns => (value n).bind fun v => ((values ns).hold [v]).bind fun _ => const _

def closureCall (c : Closure) (args : List Node) :
    Planned fun self stack => c.call self stack args :=
  (const (c.checkCount args.length)).bind fun _ => ((values args).hold [.closure c]).bind fun vs =>
    call c vs

def builtinApply (b : Builtin) (args : List Value) : Planned fun _ stack => b.apply stack args :=
  ite b.usesFiles ((settle args).bind fun _ => const _) (const _)

/-- A value applied to arguments, if it can be. -/
def application {α : Type} (t : Value)
    {G : Evaluator → CallStack → (CallStack → List Value → Run Value) → Run α} {r : Run α}
    (p : ∀ apply : Evaluator → CallStack → List Value → Run Value,
      (∀ args, Planned fun self stack => apply self stack args) →
      Planned fun self stack => G self stack (apply self)) :
    Planned fun self stack =>
      match t.application? self with
      | some apply => G self stack apply
      | none => r := by
  cases t with
  | closure c => exact p (fun self stack => c.enter self stack) fun args => call c args
  | builtin b serial => exact p (fun _ stack => b.apply stack) fun args => builtinApply b args
  | _ => exact const r

def element : ∀ (v : Value) (ns : List Node), Planned fun self stack => v.element self stack ns
  | _, [] => const _
  | v, n :: ns => ((value n).hold [v]).bind fun index => by
    cases v with
    | array id =>
      exact (const (Run.read fun m => m.heap.sequence id)).bind fun items =>
        (const (Run.ofExcept (index.slot items.size))).bind fun place =>
          element (items.getD place .nothing) ns
    | _ => exact const _

/-! ### Operators -/

def assign (target e : Node) : Planned fun self stack => Operation.assign self stack target e :=
  (const (Operation.nameOf .assignmentTarget target)).bind fun name => (value e).bind fun v =>
    (own fun chain => Run.updateScopes fun s => s.assign chain name v).bind fun _ => const _

def assignElement (target index e : Node) :
    Planned fun self stack => Operation.assignElement self stack target index e :=
  (const (Operation.nameOf .assignmentTarget target)).bind fun name => (value index).bind fun i =>
    ((value e).hold [i]).bind fun _ =>
      (own fun chain => Run.lookup chain name).bind fun _ => const _

def collect {make : Evaluator → CallStack → Run Value} (p : Planned make) :
    ∀ (count : Nat) (items : Array Value),
      Planned fun self stack => Operation.collect stack (make self) count items
  | 0, _ => const _
  | count + 1, items => (p.hold items.toList).bind fun v => collect p count (items.push v)

def initial {make : Evaluator → CallStack → Run Value} (p : Planned make) :
    ∀ count : Option Node, Planned fun self stack => Operation.initial self stack (make self) count
  | none => p
  | some n => (value n).bind fun v => (const (Run.read fun m => m.heap)).bind fun heap =>
      (const (Run.ofExcept (Operation.size heap v))).bind fun count =>
        (collect p count #[]).bind fun _ => const _

def declare (target type : Node) (count : Option Node) :
    Planned fun self stack => Operation.declare self stack target type count :=
  (const (Operation.nameOf .declared target)).bind fun name =>
    (const (Operation.nameOf .declaredType type)).bind fun typeName =>
      (const (Run.lookup [Scopes.global] typeName)).bind fun t =>
        application t fun _ make => ((initial (make []) count).hold [t]).bind fun v =>
          (own fun chain => Run.updateScopes fun s => s.define (Scopes.innermost chain) name v).bind
            fun _ => const _

def typeOf (n : Node) : Planned fun self stack => Operation.typeOf self stack n := by
  dsimp only [Operation.typeOf]
  exact match n.name? with
    | some _ => const _
    | none => value n

def convert (e type : Node) : Planned fun self stack => Operation.convert self stack e type :=
  (value e).bind fun v => ((typeOf type).hold [v]).bind fun t =>
    application t fun _ apply => apply [v]

def choose (guard yes no : Node) :
    Planned fun self stack => Operation.choose self stack guard yes no :=
  (truth guard).bind fun b => ite b (value yes) (value no)

def both (a b : Node) : Planned fun self stack => Operation.both self stack a b :=
  (truth a).bind fun first => ite first ((truth b).bind fun _ => const _) (const _)

def either (a b : Node) : Planned fun self stack => Operation.either self stack a b :=
  (truth a).bind fun first => ite first (const _) ((truth b).bind fun _ => const _)

def binary (op : Operator) (a b : Node) :
    Planned fun self stack => Operation.binary self stack op a b :=
  (value a).bind fun v => ((value b).hold [v]).bind fun _ => const _

def onOperands (op : Operator) (args : List Node) :
    Planned fun self stack => Operation.onOperands self stack op args := by
  -- only for a few operators does the count of the operands decide what is done
  rcases args with _ | ⟨a, _ | ⟨b, _ | ⟨c, _ | ⟨d, rest⟩⟩⟩⟩
  · cases op <;> exact const _
  · cases op
    case not => exact (truth a).bind fun _ => const _
    case negate => exact (value a).bind fun _ => const _
    all_goals exact const _
  · cases op
    case assign => exact assign a b
    case declare => exact declare a b none
    case and => exact both a b
    case or => exact either a b
    case convert => exact convert a b
    all_goals exact binary _ a b
  · cases op
    case assignElement => exact assignElement a b c
    case declare => exact declare a b (some c)
    case choose => exact choose a b c
    all_goals exact const _
  · cases op <;> exact const _

def operation (op : Operator) (args : List Node) :
    Planned fun self stack => Operation.run self stack op args :=
  ite (op.accepts args.length) (onOperands op args) (const _)

/-! ### Built-ins and names -/

def printAll (ending : String) :
    ∀ args : List Node, Planned fun self stack => Console.printAll self stack ending args
  | [] => const _
  | n :: ns => (value n).bind fun v => (const (Run.display v)).bind fun text =>
      (const (Run.print (text ++ ending))).bind fun _ => printAll ending ns

def print (ending : String) (args : List Node) :
    Planned fun self stack => Console.print self stack ending args :=
  ite args.isEmpty ((const (Run.print ending)).bind fun _ => const _)
    ((printAll ending args).bind fun _ => const _)

def ask (question : Node) : Planned fun self stack => Console.ask self stack (some question) :=
  (value question).bind fun _ => const _

def input : ∀ args : List Node, Planned fun self stack => Console.input self stack args
  | [] => const _
  | [question] => (ask question).bind fun _ => const _
  | _ :: _ :: _ => const _

def exchange : ∀ args : List Node, Planned fun self stack => LineBasic.exchange self stack args
  | [] => const _
  | [_] => const _
  | [a, b] => by
    dsimp only [LineBasic.exchange]
    exact match a.name?, b.name? with
      | some x, some y => (value a).bind fun v => (value b).bind fun w =>
          (own fun chain => Run.updateScopes fun s => s.assignShared chain x w).bind fun _ =>
            (own fun chain => Run.updateScopes fun s => s.assignShared chain y v).bind
              fun _ => const _
      | some _, none => const _
      | none, _ => const _
  | _ :: _ :: _ :: _ => const _

def builtinCall (b : Builtin) (args : List Node) :
    Planned fun self stack => b.call self stack args := by
  cases b
  case operator op => exact operation op args
  case print => exact print "\n" args
  case write => exact print "" args
  case input => exact input args
  case cls => exact const _
  case swap => exact exchange args
  all_goals exact (values args).bind fun vs => builtinApply _ vs

def callName (target : String) (args : List Node) :
    Planned fun self stack => LineBasic.callName self stack target args :=
  (own fun chain => Run.lookup chain target).bind fun v => by
    cases v with
    | builtin b serial => exact builtinCall b args
    | closure c => exact closureCall c args
    | array id => exact element (.array id) args
    | _ => exact ite args.isEmpty (const _) (const _)

/-! ### Constructs -/

def all : ∀ ns : List Node, Planned fun self stack => Statements.all self stack ns
  | [] => const _
  | n :: ns => (part n).bind fun _ => all ns

def block : ∀ ns : List Node, Planned fun self stack => Statements.block self stack ns
  | [] => const _
  | n :: ns => (part n).bind fun flow =>
      match flow with
      | .signal _ => const _
      | .value _ => block ns

def branch (n : Node) : Planned fun self stack => Branch.run self stack n :=
  (const (n.part 0 "IF")).bind fun guard => (truth guard).bind fun b =>
    ite b ((const (n.bodyPart "IF")).bind fun body => (part body).bind fun _ => const _) (const _)

def alone (n : Node) : Planned fun self stack => Branch.alone self stack n :=
  (branch n).bind fun _ => const _

def chain : ∀ ns : List Node, Planned fun self stack => Branch.chain self stack ns
  | [] => const _
  | n :: ns => (branch n).bind fun b =>
      match b with
      | .skipped => chain ns
      | .taken => const _
      | .left _ => const _

def whileTurns (guard body : Node) :
    ∀ turns : Nat, Planned fun self stack => Loop.whileTurns self stack guard body turns
  | 0 => const _
  | turns + 1 => (truth guard).bind fun b =>
      ite b ((part body).bind fun flow =>
        match Loop.left? flow with
        | some _ => const _
        | none => whileTurns guard body turns) (const _)

def doTurns (guard body : Node) :
    ∀ turns : Nat, Planned fun self stack => Loop.doTurns self stack guard body turns
  | 0 => const _
  | turns + 1 => (part body).bind fun flow =>
      match Loop.left? flow with
      | some _ => const _
      | none => (truth guard).bind fun b => ite b (doTurns guard body turns) (const _)

def advance (counter : String) (step : Value) :
    Planned fun _ stack => Loop.advance stack counter step :=
  (own fun chain => Run.lookup chain counter).bind fun current =>
    (const (Run.onHeap fun h => Value.binary h .plus current step)).bind fun next =>
      own fun chain => Run.updateScopes fun s => s.assignShared chain counter next

def forTurns (counter : String) (limit step body : Node) :
    ∀ turns : Nat, Planned fun self stack => Loop.forTurns self stack counter limit step body turns
  | 0 => const _
  | turns + 1 => (own fun chain => Run.lookup chain counter).bind fun current =>
      ((value limit).hold [current]).bind fun bound => ((value step).hold [current, bound]).bind
        fun increment =>
        (const (Run.ofExcept (Loop.passed current bound increment))).bind fun beyond =>
          ite beyond (const _) ((part body).bind fun flow =>
            match Loop.left? flow with
            | some _ => const _
            | none => (advance counter increment).bind fun _ =>
                forTurns counter limit step body turns)

def whileLoop (turns : Nat) (n : Node) :
    Planned fun self stack => Loop.whileLoop self turns stack n :=
  (const (n.part 0 "WHILE")).bind fun guard => (const (n.bodyPart "WHILE")).bind fun body =>
    whileTurns guard body turns

def doLoop (turns : Nat) (n : Node) : Planned fun self stack => Loop.doLoop self turns stack n :=
  (const (n.part 0 "DO")).bind fun guard => (const (n.bodyPart "DO")).bind fun body =>
    doTurns guard body turns

def forLoop (turns : Nat) (counter : String) (n : Node) :
    Planned fun self stack => Loop.forLoop self turns stack counter n :=
  (const (n.part 0 "FOR")).bind fun start => (const (n.part 1 "FOR")).bind fun limit =>
    (const (n.part 2 "FOR")).bind fun step => (const (n.bodyPart "FOR")).bind fun body =>
      (value start).bind fun v =>
        (own fun chain => Run.updateScopes fun s => s.assignShared chain counter v).bind fun _ =>
          forTurns counter limit step body turns

def definition (n : Node) (tag name : String) (params : List String) :
    Planned fun _ stack => defineClosure stack n tag name params :=
  (const (n.bodyPart tag)).bind fun body =>
    (const (Run.take fun m => m.nextSerial)).bind fun serial =>
    (own fun chain => Run.updateScopes fun s =>
      s.define (Scopes.innermost chain) name (.closure ⟨serial, name, params, body, chain⟩)).bind
        fun _ => const _

def leaveCall : ∀ ns : List Node, Planned fun self stack => LineBasic.leaveCall self stack ns
  | [] => const _
  | n :: _ => (value n).bind fun _ => const _

def inclusion : ∀ what : Inclusion, Planned fun _ stack => includeUnit stack what
  | .library _ => const _
  | .script _ => (settle []).bind fun _ => const _

def array (ns : List Node) : Planned fun self stack => makeArray self stack ns :=
  (values ns).bind fun _ => const _

def control (turns : Nat) (n : Node) :
    ∀ c : Control, Planned fun self stack => c.evaluate self turns stack n
  | .program => all n.children
  | .block => block n.children
  | .chain => chain n.children
  | .branch _ => alone n
  | .whileLoop => whileLoop turns n
  | .doLoop => doLoop turns n
  | .forLoop counter => forLoop turns counter n
  | .subroutine name params => definition n "SUB" name params
  | .function name params => definition n "FUNCTION" name params
  | .exitLoop => const _
  | .continueLoop => const _
  | .returned => leaveCall n.children
  | .inclusion what => inclusion what

/-- The plan of the rule for a node. -/
def evaluate (turns : Nat) (n : Node) : Planned fun self stack => n.evaluate self turns stack := by
  dsimp only [Node.evaluate]
  exact match n.kind with
    | .literal _ => const _
    | .name s => (own fun chain => Run.lookup chain s).bind fun _ => const _
    | .array => (array n.children).bind fun _ => const _
    | .call target => (callName target n.children).bind fun _ => const _
    | .control c => control turns n c

end Planned
end LineBasic
