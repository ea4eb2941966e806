import LineBasic.Proofs.Discipline
import LineBasic.Proofs.Plans

/-!
# Laws of evaluation

A `Region` says which nodes may be evaluated, and how a run may end. A `Realm` also says in which
chains, and which values and scopes may come about. Its fields are what a rule does to scopes: names
are looked up and bound by the rules for a few kinds of nodes and by libraries, and by nothing else.
Only calls make new scopes. A `Domain` is a realm that has room for these, and a `Law` is a domain
that calls do not leave. What the fields demand is then true of whole runs.

* `Region`, `Realm` : the predicates, and that each way to bind names keeps to them;
  `Realm.guard` is its guard.
* `Plan.Keeps` : a plan that stays in a realm, as long as its parts do, and makes no scopes itself.
* `Planned.evaluate_keeps` : so does the plan of the rule for any node of the realm.
* `Domain`, `Law` : a realm with the scopes of calls, and with the bodies of all
  functions that can be called.
* `eval_upholds` : evaluation keeps to the law. `Moment.Lawful.visits` : so does
  all that a run leads to.
* `Moment.Starts.lawful` : so does the run of a program on machines on which
  others of its nodes were run.
-/

namespace LineBasic

/-- The name that the rule for a node looks up. -/
def NodeKind.sought? : NodeKind → Option String
  | name s => some s
  | call target => some target
  | control (.forLoop counter) => some counter
  | _ => none

theorem Node.sought?_of_name? {n : Node} {x : String} (h : n.name? = some x) :
    n.kind.sought? = some x := by
  unfold name? at h
  split at h
  · next hkind => rw [hkind]; exact h
  · cases h

/-- The nodes that rules may meet, and how a run may end. Besides errors that are reported there is
a crash, for a body that is no child, and a loop can lack fuel for its turns. -/
structure Region where
  /-- The nodes that a rule evaluates. -/
  node : Node → Prop
  /-- The nodes whose rule is followed. -/
  rule : Node → Prop := node
  error : Error → Prop := fun _ => True
  lack : Prop := True
  follow : ∀ {n}, node n → rule n := by exact fun h => h
  child : ∀ {n c : Node}, rule n → c ∈ n.children → node c
  reported : ∀ {e}, e.isCrash = false → error e := by exact fun _ => trivial
  overrun : ∀ {n i}, rule n → n.body? = none → n.bodyIndex = some i →
    error (.crash i.toNat n.children.length) := by exact fun _ _ _ => trivial
  looping : ∀ {n}, rule n → n.isLoop = true → lack := by exact fun _ _ => trivial

/-- What rules may meet, and that they never leave that. The fields from `found` on go through all
that looks a name up or binds one. -/
structure Realm extends Region where
  chain : Chain → Prop
  value : Value → Prop
  scopes : Scopes → Prop
  plain : ∀ {v}, v.IsPlain → value v
  top : chain [Scopes.global]
  found : ∀ {n x c s v}, rule n → n.kind.sought? = some x → chain c → scopes s →
    s.find? c x = some v →
    value v
  assigned : ∀ {n x c s v}, node n → n.name? = some x → chain c → scopes s → value v →
    scopes (s.assign c x v)
  declared : ∀ {n x c s v}, node n → n.name? = some x → chain c → scopes s → value v →
    scopes (s.define (Scopes.innermost c) x v)
  /-- The counter of a `FOR` loop. -/
  counted : ∀ {n x c s v}, rule n → n.kind = .control (.forLoop x) → chain c → scopes s → value v →
    scopes (s.assignShared c x v)
  /-- The operands of `SWAP`, as far as programs can get hold of it. -/
  swapped : ∀ {serial n x c s v}, value (.builtin .swap serial) → node n →
    n.name? = some x → chain c →
    scopes s → value v → scopes (s.assignShared c x v)
  /-- The definition of a function. -/
  closed : ∀ {n body kind name params serial c s}, rule n →
    n.kind = .control (ClosureKind.control kind name params) → n.body? = some body →
      chain c → scopes s →
    scopes (s.define (Scopes.innermost c) name (.closure ⟨serial, name, params, body, c⟩))
  installed : ∀ {library : Bundle} {b serial s}, b ∈ library.contents → scopes s →
    scopes (s.define Scopes.global b.name (.builtin b serial))

/-- A realm that calls do not leave, as far as scopes are concerned. -/
structure Domain extends Realm where
  /-- The scope of a call. -/
  entered : ∀ {c args s}, value (.closure c) → (∀ v ∈ args, value v) → scopes s →
    scopes (s.push (.ofArguments c.params args)) ∧ chain (s.size :: c.scope)

namespace Realm

variable (D : Realm)

/-- The guard of a realm. -/
def guard : Guard where
  value := D.value
  scopes := D.scopes
  error := D.error
  lack := D.lack
  plain := D.plain
  external h := D.reported (Error.isCrash_of_isInternal h)

/-- The guard of a realm, with a number of scopes that does not change. -/
def sized (count : Nat) : Guard :=
  { D.guard with scopes := fun s => D.scopes s ∧ s.size = count }

/-- The value that a node ends with, or that a call is left with. -/
def flow : Flow → Prop
  | .value v => D.value v
  | .signal (.returned v) => D.value v
  | .signal _ => True

variable {D}

theorem nothing : D.value .nothing := D.plain trivial

theorem flow_done : D.flow .done := D.nothing

theorem value_result {f : Flow} (h : D.flow f) : D.value f.result := by
  cases f with
  | value v => exact h
  | signal s => exact D.nothing

theorem value_returnValue {f : Flow} (h : D.flow f) : D.value f.returnValue := by
  rcases f with v | _ | _ | v
  · exact D.nothing
  · exact D.nothing
  · exact D.nothing
  · exact h

theorem child_body {n b : Node} (h : D.rule n) (hb : n.body? = some b) : D.node b := by
  obtain ⟨i, -, hi⟩ := Option.bind_eq_some_iff.1 hb
  exact D.child h (List.mem_of_getElem? hi)

end Realm

/-- What does not change the number of scopes, whatever it is, need not be told the number. -/
theorem Run.Upholds.of_sized {α : Type} {D : Realm} {P : α → Prop} {r : Run α}
    (h : ∀ count, r.Upholds (D.sized count) P) : r.Upholds D.guard P := by
  intro m hm
  have hr := h m.scopes.size m ⟨⟨hm.scopes, rfl⟩, hm.heap⟩
  cases hend : r m with
  | value a m' =>
    rw [hend] at hr
    exact ⟨⟨hr.1.scopes.1, hr.1.heap⟩, hr.2⟩
  | failure e m' =>
    rw [hend] at hr
    exact ⟨⟨hr.1.scopes.1, hr.1.heap⟩, hr.2⟩
  | exhausted =>
    rw [hend] at hr
    exact hr

namespace Scopes

@[simp] theorem size_define (s : Scopes) (id : ScopeId) (x : String) (v : Value) :
    (s.define id x v).size = s.size := Array.size_modify

@[simp] theorem size_assign (s : Scopes) (c : Chain) (x : String) (v : Value) :
    (s.assign c x v).size = s.size := by
  unfold assign
  split <;> exact size_define ..

@[simp] theorem size_assignShared (s : Scopes) (c : Chain) (x : String) (v : Value) :
    (s.assignShared c x v).size = s.size := size_define ..

end Scopes

/-! ### Plans that stay in a realm -/

section Plans

variable {α β : Type} {D : Realm} {P : α → Prop} {Q : β → Prop}

/-- What a plan does stays in the realm, and the plan ends with something that has the property, as
long as its parts stay in the realm. On its own a plan makes no scopes. -/
def Plan.Keeps (D : Realm) (P : α → Prop) : Plan α → Prop
  | done a => P a
  | @own _ β r next => ∃ Q : β → Prop, (∀ c, D.chain c → ∀ count, (r c).Upholds (D.sized count) Q) ∧
      ∀ b, Q b → (next b).Keeps D P
  | settle _ next => next.Keeps D P
  | part _ n next => D.node n ∧ ∀ flow, D.flow flow → (next flow).Keeps D P
  | call _ c args next => D.value (.closure c) ∧ (∀ v ∈ args, D.value v) ∧
      ∀ v, D.value v → (next v).Keeps D P

namespace Plan.Keeps

theorem bind {p : Plan α} {f : α → Plan β} (hp : p.Keeps D P) (hf : ∀ a, P a → (f a).Keeps D Q) :
    (p.bind f).Keeps D Q := by
  induction p with
  | done a => exact hf a hp
  | own r next ih =>
    obtain ⟨R, hr, hnext⟩ := hp
    exact ⟨R, hr, fun b hb => ih b (hnext b hb)⟩
  | settle held next ih => exact ih hp
  | part held n next ih => exact ⟨hp.1, fun flow hflow => ih flow (hp.2 flow hflow)⟩
  | call held c args next ih => exact ⟨hp.1, hp.2.1, fun v hv => ih v (hp.2.2 v hv)⟩

/-- What is kept aside does not matter. -/
theorem hold {p : Plan α} (hp : p.Keeps D P) (vs : List Value) : (p.hold vs).Keeps D P := by
  induction p with
  | done a => exact hp
  | own r next ih =>
    obtain ⟨R, hr, hnext⟩ := hp
    exact ⟨R, hr, fun b hb => ih b (hnext b hb)⟩
  | settle held next ih => exact ih hp
  | part held n next ih => exact ⟨hp.1, fun flow hflow => ih flow (hp.2 flow hflow)⟩
  | call held c args next ih => exact ⟨hp.1, hp.2.1, fun v hv => ih v (hp.2.2 v hv)⟩

theorem own {r : Chain → Run α} (h : ∀ {count} c, D.chain c → (r c).Upholds (D.sized count) P) :
    (Planned.own r).plan.Keeps D P := ⟨P, fun c hc _ => h c hc, fun _ ha => ha⟩

theorem const {r : Run α} (h : ∀ {count}, r.Upholds (D.sized count) P) :
    (Planned.const r).plan.Keeps D P := own fun _ _ => h

theorem settle (held : List Value) : (Planned.settle held).plan.Keeps D fun _ => True := trivial

theorem part {n : Node} (h : D.node n) : (Planned.part n).plan.Keeps D D.flow := ⟨h, fun _ hf => hf⟩

theorem call {c : Closure} {args : List Value} (hc : D.value (.closure c))
    (hargs : ∀ v ∈ args, D.value v) : (Planned.call c args).plan.Keeps D D.value :=
  ⟨hc, hargs, fun _ hv => hv⟩

theorem ite {G K : Evaluator → CallStack → Run α} {b : Bool} {p : Planned G} {q : Planned K}
    (hp : b = true → p.plan.Keeps D P) (hq : b = false → q.plan.Keeps D P) :
    (Planned.ite b p q).plan.Keeps D P := by
  cases b with
  | true => exact hp rfl
  | false => exact hq rfl

end Plan.Keeps

end Plans

theorem Closure.checkCount_upholds {G : Guard} (h : ∀ {e}, e.isCrash = false → G.error e)
    (c : Closure) (count : Nat) : (c.checkCount count).Upholds G fun _ => True := by
  unfold checkCount
  split
  · exact .pure trivial
  · exact .fail (h rfl)

namespace Planned

variable {D : Realm} {size : Nat}

theorem value_keeps {n : Node} (h : D.node n) : (value n).plan.Keeps D D.value :=
  .bind (.part h) fun _ hf => .const (.pure (Realm.value_result hf))

theorem truth_keeps {n : Node} (h : D.node n) : (truth n).plan.Keeps D fun _ => True :=
  .bind (value_keeps h) fun _ _ => .const .look

theorem values_keeps {ns : List Node} (h : ∀ n ∈ ns, D.node n) :
    (values ns).plan.Keeps D fun vs => ∀ v ∈ vs, D.value v := by
  induction ns with
  | nil => exact .const (.pure (by simp))
  | cons n ns ih =>
    refine .bind (value_keeps (h n (by simp))) fun v hv => ?_
    refine .bind (.hold (ih fun m hm => h m (by simp [hm])) _) fun vs hvs => ?_
    exact .const (.pure (by simpa [hv] using hvs))

theorem closureCall_keeps {c : Closure} {args : List Node} (hc : D.value (.closure c))
    (h : ∀ n ∈ args, D.node n) : (closureCall c args).plan.Keeps D D.value := by
  refine .bind (.const (c.checkCount_upholds D.reported args.length)) fun _ _ => ?_
  exact .bind (.hold (values_keeps h) _) fun vs hvs => .call hc hvs

theorem builtinApply_keeps (b : Builtin) {args : List Value} (h : ∀ v ∈ args, D.value v) :
    (builtinApply b args).plan.Keeps D D.value :=
  .ite (fun _ => .bind (.settle args) fun _ _ => .const (b.onValues_upholds h))
    fun _ => .const (b.onValues_upholds h)

/-- What a value is applied to stays in the realm if what follows the application does. -/
theorem application_keeps {α : Type} {P : α → Prop} {t : Value} (ht : D.value t)
    {G : Evaluator → CallStack → (CallStack → List Value → Run Value) → Run α} {r : Run α}
    {p : ∀ apply : Evaluator → CallStack → List Value → Run Value,
      (∀ args, Planned fun self stack => apply self stack args) →
      Planned fun self stack => G self stack (apply self)}
    (hp : ∀ apply make, (∀ args, (∀ v ∈ args, D.value v) → (make args).plan.Keeps D D.value) →
      (p apply make).plan.Keeps D P)
    (hr : ∀ {size}, r.Upholds (D.sized size) P) : (application t p (r := r)).plan.Keeps D P := by
  cases t with
  | closure c => exact hp _ _ fun args hargs => .call ht hargs
  | builtin b serial => exact hp _ _ fun args hargs => builtinApply_keeps b hargs
  | _ => exact .const hr

theorem element_keeps {v : Value} {ns : List Node} (hv : D.value v) (h : ∀ n ∈ ns, D.node n) :
    (element v ns).plan.Keeps D D.value := by
  induction ns generalizing v with
  | nil => exact .const (.pure hv)
  | cons n ns ih =>
    refine .bind (.hold (value_keeps (h n (by simp))) _) fun index _ => ?_
    cases v with
    | array id =>
      refine .bind (.const (P := D.guard.sequence) (.sequence id)) fun items hi => ?_
      refine .bind (.const (.ofExcept (index.slot_checked _))) fun place _ => ?_
      exact ih (Guard.value_getD hi place) fun m hm => h m (by simp [hm])
    | _ => exact .const (.fail (D.reported rfl))

/-! ### Operators -/

/-- An operand that has to be a name: it is that name. -/
theorem nameOf_keeps (role : NameRole) (n : Node) :
    (const (Operation.nameOf role n)).plan.Keeps D fun x => n.name? = some x := by
  refine .const ?_
  unfold Operation.nameOf
  split
  · next x hx => exact .pure hx
  · exact .fail (D.reported rfl)

theorem lookup_upholds {n : Node} {x : String} {c : Chain} (h : D.rule n)
    (hx : n.kind.sought? = some x) (hc : D.chain c) :
    (Run.lookup c x).Upholds (D.sized size) D.value := by
  intro m hm
  unfold Run.lookup
  split
  · next v hv => exact ⟨hm, D.found h hx hc hm.scopes.1 hv⟩
  · exact ⟨hm, D.reported rfl⟩

theorem assign_keeps {target e : Node} (ht : D.node target) (he : D.node e) :
    (assign target e).plan.Keeps D D.value := by
  refine .bind (nameOf_keeps _ target) fun x hx => .bind (value_keeps he) fun v hv => ?_
  refine .bind (.own fun c hc => .updateScopes fun s hs => ?_) fun _ _ => .const (.pure D.nothing)
  exact ⟨D.assigned ht hx hc hs.1 hv, by simpa using hs.2⟩

theorem assignElement_keeps {target index e : Node} (ht : D.node target) (hi : D.node index)
    (he : D.node e) : (assignElement target index e).plan.Keeps D D.value := by
  refine .bind (nameOf_keeps _ target) fun x hx => .bind (value_keeps hi) fun i _ => ?_
  refine .bind (.hold (value_keeps he) _) fun v hv => ?_
  refine .bind (.own fun c hc => lookup_upholds (D.follow ht) (Node.sought?_of_name? hx) hc)
    fun w _ => .const ?_
  split
  · next id _ =>
    refine .andThen .look fun count => .andThen (.ofExcept (i.slot_checked count)) fun place => ?_
    refine .andThen (.update fun m hm => hm.edit id fun items hitems w hw => ?_) fun _ =>
      .pure D.nothing
    rcases Array.mem_or_eq_of_mem_setIfInBounds hw with hw | rfl
    · exact hitems w hw
    · exact hv
  · exact .fail (D.reported rfl)

theorem collect_keeps {make : Evaluator → CallStack → Run Value} {p : Planned make}
    (hp : p.plan.Keeps D D.value) (count : Nat) {items : Array Value}
    (hi : D.guard.sequence items) :
    (collect p count items).plan.Keeps D D.guard.sequence := by
  induction count generalizing items with
  | zero => exact .const (.pure hi)
  | succ count ih => exact .bind (.hold hp _) fun v hv => ih (Guard.sequence_push hi hv)

theorem initial_keeps {make : Evaluator → CallStack → Run Value} {p : Planned make}
    {count : Option Node} (hp : p.plan.Keeps D D.value) (h : ∀ n ∈ count, D.node n) :
    (initial p count).plan.Keeps D D.value := by
  cases count with
  | none => exact hp
  | some n =>
    refine .bind (value_keeps (h n rfl)) fun v _ => .bind (.const .look) fun heap _ => ?_
    refine .bind (.const (.ofExcept (Operation.size_checked heap v))) fun k _ => ?_
    refine .bind (collect_keeps hp k (by simp [Guard.sequence])) fun items hi => .const ?_
    exact .andThen (.allocate hi) fun _ => .pure (D.plain trivial)

theorem declare_keeps {target type : Node} {count : Option Node} (ht : D.node target)
    (htype : D.node type) (h : ∀ n ∈ count, D.node n) :
    (declare target type count).plan.Keeps D D.value := by
  refine .bind (nameOf_keeps _ target) fun x hx => .bind (nameOf_keeps _ type) fun y hy => ?_
  refine .bind (.const (lookup_upholds (D.follow htype) (Node.sought?_of_name? hy) D.top))
    fun t hvalue => ?_
  refine application_keeps hvalue (fun apply make hmake => ?_) (.fail (D.reported rfl))
  refine .bind (.hold (initial_keeps (hmake [] (by simp)) h) _) fun v hv => ?_
  refine .bind (.own fun c hc => .updateScopes fun s hs => ?_) fun _ _ => .const (.pure D.nothing)
  exact ⟨D.declared ht hx hc hs.1 hv, by simpa using hs.2⟩

theorem typeOf_keeps {n : Node} (h : D.node n) : (typeOf n).plan.Keeps D D.value := by
  obtain ⟨kind, children, body⟩ := n
  cases kind with
  | name x => exact .const (lookup_upholds (D.follow h) rfl D.top)
  | _ => exact value_keeps h

theorem convert_keeps {e type : Node} (he : D.node e) (htype : D.node type) :
    (convert e type).plan.Keeps D D.value := by
  refine .bind (value_keeps he) fun v hv => .bind (.hold (typeOf_keeps htype) _) fun t ht => ?_
  exact application_keeps ht (fun apply make hmake => hmake [v] (by simpa using hv))
    (.fail (D.reported rfl))

theorem choose_keeps {guard yes no : Node} (hg : D.node guard) (hy : D.node yes) (hn : D.node no) :
    (choose guard yes no).plan.Keeps D D.value :=
  .bind (truth_keeps hg) fun _ _ => .ite (fun _ => value_keeps hy) fun _ => value_keeps hn

theorem truthValue_keeps {n : Node} (h : D.node n) (f : Bool → Bool) :
    ((truth n).bind fun b => const (return Value.bool (f b))).plan.Keeps D D.value :=
  .bind (truth_keeps h) fun _ _ => .const (.pure (D.plain trivial))

theorem both_keeps {a b : Node} (ha : D.node a) (hb : D.node b) : (both a b).plan.Keeps D D.value :=
  .bind (truth_keeps ha) fun _ _ =>
    .ite (fun _ => truthValue_keeps hb id) fun _ => .const (.pure (D.plain trivial))

theorem either_keeps {a b : Node} (ha : D.node a) (hb : D.node b) :
    (either a b).plan.Keeps D D.value :=
  .bind (truth_keeps ha) fun _ _ =>
    .ite (fun _ => .const (.pure (D.plain trivial))) fun _ => truthValue_keeps hb id

theorem binary_keeps {op : Operator} {a b : Node} (binary : op.isBinary = true) (ha : D.node a)
    (hb : D.node b) : (Planned.binary op a b).plan.Keeps D D.value :=
  .bind (value_keeps ha) fun v _ => .bind (.hold (value_keeps hb) _) fun w _ =>
    .const (.onHeap fun heap => Value.binary_checked binary heap v w)

theorem onOperands_keeps {op : Operator} {args : List Node}
    (accepts : op.accepts args.length = true) (h : ∀ n ∈ args, D.node n) :
    (onOperands op args).plan.Keeps D D.value := by
  -- with a count that the operator does not accept there is nothing to show
  rcases args with _ | ⟨a, _ | ⟨b, _ | ⟨c, _ | ⟨d, rest⟩⟩⟩⟩
  · cases op <;> cases accepts
  · have ha : D.node a := h a (by simp)
    cases op
    case not => exact truthValue_keeps ha Bool.not
    case negate => exact .bind (value_keeps ha) fun v _ => .const (.ofPlain v.negated_checked)
    all_goals cases accepts
  · have ha : D.node a := h a (by simp)
    have hb : D.node b := h b (by simp)
    cases op
    case assign => exact assign_keeps ha hb
    case declare => exact declare_keeps ha hb (by simp)
    case and => exact both_keeps ha hb
    case or => exact either_keeps ha hb
    case convert => exact convert_keeps ha hb
    all_goals first | exact binary_keeps rfl ha hb | cases accepts
  · have ha : D.node a := h a (by simp)
    have hb : D.node b := h b (by simp)
    have hc : D.node c := h c (by simp)
    cases op
    case assignElement => exact assignElement_keeps ha hb hc
    case declare => exact declare_keeps ha hb (by simpa using hc)
    case choose => exact choose_keeps ha hb hc
    all_goals cases accepts
  · cases op <;> simp [Operator.accepts, Operator.arity] at accepts

theorem operation_keeps {op : Operator} {args : List Node} (h : ∀ n ∈ args, D.node n) :
    (operation op args).plan.Keeps D D.value :=
  .ite (fun accepts => onOperands_keeps accepts h) fun _ => .const (.fail (D.reported rfl))

/-! ### Built-ins and names -/

theorem printAll_keeps (ending : String) {args : List Node} (h : ∀ n ∈ args, D.node n) :
    (printAll ending args).plan.Keeps D fun _ => True := by
  induction args with
  | nil => exact .const (.pure trivial)
  | cons n ns ih =>
    refine .bind (value_keeps (h n (by simp))) fun v _ =>
      .bind (.const (.display v)) fun text _ => ?_
    exact .bind (.const (.print _)) fun _ _ => ih fun m hm => h m (by simp [hm])

theorem print_keeps (ending : String) {args : List Node} (h : ∀ n ∈ args, D.node n) :
    (print ending args).plan.Keeps D D.value := by
  cases args with
  | nil => exact .bind (.const (.print ending)) fun _ _ => .const (.pure D.nothing)
  | cons n ns => exact .bind (printAll_keeps ending h) fun _ _ => .const (.pure D.nothing)

theorem readLine_upholds : Console.readLine.Upholds (D.sized size) D.value := by
  unfold Console.readLine
  refine .andThen (.take fun m hm => ⟨hm.of_eq rfl rfl, trivial⟩) fun line => ?_
  refine .andThen (.ofExcept (.mapError (fun _ => trivial) fun _ => rfl)) fun text => ?_
  exact .pure (D.plain (Files.isPlain_lineValue text))

theorem input_keeps {args : List Node} (h : ∀ n ∈ args, D.node n) :
    (input args).plan.Keeps D D.value := by
  match args with
  | [] => exact .const readLine_upholds
  | [question] =>
    have hask : (ask question).plan.Keeps D fun _ => True :=
      .bind (value_keeps (h question (by simp))) fun v _ =>
        .const (.andThen (.display v) fun text => .print text)
    exact .bind hask fun _ _ => .const readLine_upholds
  | _ :: _ :: _ => exact .const (.fail (D.reported rfl))

theorem exchange_keeps {args : List Node} {serial : Nat} (hswap : D.value (.builtin .swap serial))
    (h : ∀ n ∈ args, D.node n) : (exchange args).plan.Keeps D D.value := by
  match args with
  | [] => exact .const (.fail (D.reported rfl))
  | [_] => exact .const (.fail (D.reported rfl))
  -- whether the operands are names is decided by their kinds, on which the plan depends
  | [⟨kind, _, _⟩, ⟨kind', _, _⟩] =>
    have ha := h _ (.head _)
    have hb := h _ (.tail _ (.head _))
    cases kind
    case name x =>
      cases kind'
      case name y =>
        refine .bind (value_keeps ha) fun v hv => .bind (value_keeps hb) fun w hw => ?_
        refine .bind (.own fun c hc => .updateScopes fun s hs => ?_) fun _ _ =>
          .bind (.own fun c hc =>
          .updateScopes fun s hs => ?_) fun _ _ => .const (.pure D.nothing)
        · exact ⟨D.swapped hswap ha rfl hc hs.1 hw, by simpa using hs.2⟩
        · exact ⟨D.swapped hswap hb rfl hc hs.1 hv, by simpa using hs.2⟩
      all_goals exact .const (.fail (D.reported rfl))
    all_goals exact .const (.fail (D.reported rfl))
  | _ :: _ :: _ :: _ => exact .const (.fail (D.reported rfl))

theorem builtinCall_keeps {b : Builtin} {args : List Node} {serial : Nat}
    (hb : D.value (.builtin b serial)) (h : ∀ n ∈ args, D.node n) :
    (builtinCall b args).plan.Keeps D D.value := by
  cases b
  case operator op => exact operation_keeps h
  case print => exact print_keeps "\n" h
  case write => exact print_keeps "" h
  case input => exact input_keeps h
  case cls => exact .const (.andThen (.print _) fun _ => .pure D.nothing)
  case swap => exact exchange_keeps hb h
  all_goals exact .bind (values_keeps h) fun vs hvs => builtinApply_keeps _ hvs

theorem callName_keeps {n : Node} {target : String} (h : D.rule n) (hkind : n.kind = .call target) :
    (callName target n.children).plan.Keeps D D.value := by
  have hargs : ∀ c ∈ n.children, D.node c := fun c hc => D.child h hc
  refine .bind (.own fun c hc => lookup_upholds h (by rw [hkind]; rfl) hc) fun v hv => ?_
  cases v with
  | builtin b serial => exact builtinCall_keeps hv hargs
  | closure c => exact closureCall_keeps hv hargs
  | array id => exact element_keeps hv hargs
  | _ => exact .ite (fun _ => .const (.pure hv)) fun _ => .const (.fail (D.reported rfl))

/-! ### Constructs -/

theorem part_keeps {n : Node} (h : D.rule n) (i : Nat) (tag : String) :
    (const (n.part i tag)).plan.Keeps D D.node := by
  refine .const ?_
  unfold Node.part
  split
  · next c hc => exact .pure (D.child h (List.mem_of_getElem? hc))
  · exact .fail (D.reported rfl)

theorem bodyPart_keeps {n : Node} (h : D.rule n) (tag : String) :
    (const (n.bodyPart tag)).plan.Keeps D fun body => n.body? = some body := by
  refine .const ?_
  unfold Node.bodyPart
  split
  · next body hbody => exact .pure hbody
  · next hnone =>
    split
    · exact .fail (D.reported rfl)
    · next i hi => exact .fail (D.overrun h hnone hi)

theorem all_keeps {ns : List Node} (h : ∀ n ∈ ns, D.node n) : (all ns).plan.Keeps D D.flow := by
  induction ns with
  | nil => exact .const (.pure D.flow_done)
  | cons n ns ih => exact .bind (.part (h n (by simp))) fun _ _ => ih fun m hm => h m (by simp [hm])

theorem block_keeps {ns : List Node} (h : ∀ n ∈ ns, D.node n) : (block ns).plan.Keeps D D.flow := by
  induction ns with
  | nil => exact .const (.pure D.flow_done)
  | cons n ns ih =>
    refine .bind (.part (h n (by simp))) fun flow hflow => ?_
    cases flow with
    | signal s => exact .const (.pure hflow)
    | value v => exact ih fun m hm => h m (by simp [hm])

/-- The flow that a branch is left with. -/
theorem branch_keeps {n : Node} (h : D.rule n) :
    (branch n).plan.Keeps D fun b => ∀ s, b = .left s → D.flow (.signal s) := by
  refine .bind (part_keeps h 0 _) fun guard hguard => .bind (truth_keeps hguard) fun _ _ => ?_
  refine .ite (fun _ => .bind (bodyPart_keeps h _) fun body hbody => ?_) fun _ =>
    .const (.pure (by simp))
  refine .bind (.part (D.child_body h hbody)) fun flow hflow => .const ?_
  cases flow with
  | signal s =>
    refine .pure ?_
    rintro _ ⟨⟩
    exact hflow
  | value v => exact .pure (by simp)

theorem alone_keeps {n : Node} (h : D.rule n) : (alone n).plan.Keeps D D.flow := by
  refine .bind (branch_keeps h) fun b hb => .const ?_
  cases b with
  | left s => exact .pure (hb s rfl)
  | _ => exact .pure D.flow_done

theorem chain_keeps {ns : List Node} (h : ∀ n ∈ ns, D.node n) : (chain ns).plan.Keeps D D.flow := by
  induction ns with
  | nil => exact .const (.pure D.flow_done)
  | cons n ns ih =>
    refine .bind (branch_keeps (D.follow (h n (by simp)))) fun b hb => ?_
    cases b with
    | skipped => exact ih fun m hm => h m (by simp [hm])
    | taken => exact .const (.pure D.flow_done)
    | left s => exact .const (.pure (hb s rfl))

theorem whileTurns_keeps {guard body : Node} (hlack : D.lack) (hg : D.node guard) (hb : D.node body)
    (turns : Nat) : (whileTurns guard body turns).plan.Keeps D D.flow := by
  induction turns with
  | zero => exact .const (.exhausted hlack)
  | succ turns ih =>
    refine .bind (truth_keeps hg) fun _ _ => .ite (fun _ => ?_) fun _ => .const (.pure D.flow_done)
    refine .bind (.part hb) fun flow hflow => ?_
    rcases flow with _ | _ | _ | v
    · exact ih
    · exact .const (.pure D.flow_done)
    · exact ih
    · exact .const (.pure hflow)

theorem doTurns_keeps {guard body : Node} (hlack : D.lack) (hg : D.node guard) (hb : D.node body)
    (turns : Nat) : (doTurns guard body turns).plan.Keeps D D.flow := by
  induction turns with
  | zero => exact .const (.exhausted hlack)
  | succ turns ih =>
    have hagain : ((truth guard).bind fun b => ite b (doTurns guard body turns)
        (const (return .done))).plan.Keeps D D.flow :=
      .bind (truth_keeps hg) fun _ _ => .ite (fun _ => ih) fun _ => .const (.pure D.flow_done)
    refine .bind (.part hb) fun flow hflow => ?_
    rcases flow with _ | _ | _ | v
    · exact hagain
    · exact .const (.pure D.flow_done)
    · exact hagain
    · exact .const (.pure hflow)

section Counting

variable {n : Node} {counter : String}

theorem lookupCounter_upholds (h : D.rule n) (hkind : n.kind = .control (.forLoop counter))
    {c : Chain} (hc : D.chain c) : (Run.lookup c counter).Upholds (D.sized size) D.value :=
  lookup_upholds h (by rw [hkind]; rfl) hc

theorem setCounter_upholds (h : D.rule n) (hkind : n.kind = .control (.forLoop counter)) {c : Chain}
    (hc : D.chain c) {v : Value} (hv : D.value v) :
    (Run.updateScopes fun s => s.assignShared c counter v).Upholds (D.sized size) fun _ => True :=
  .updateScopes fun _ hs => ⟨D.counted h hkind hc hs.1 hv, by simpa using hs.2⟩

theorem advance_keeps (h : D.rule n) (hkind : n.kind = .control (.forLoop counter)) (step : Value) :
    (advance counter step).plan.Keeps D fun _ => True := by
  refine .bind (.own fun c hc => lookupCounter_upholds h hkind hc) fun current _ => ?_
  refine .bind (.const (.onHeap fun heap => Value.binary_checked rfl heap current step))
    fun next hnext => ?_
  exact .own fun c hc => setCounter_upholds h hkind hc hnext

theorem forTurns_keeps (h : D.rule n) (hkind : n.kind = .control (.forLoop counter))
    {limit step body : Node} (hl : D.node limit) (hs : D.node step) (hb : D.node body)
    (turns : Nat) :
    (forTurns counter limit step body turns).plan.Keeps D D.flow := by
  induction turns with
  | zero => exact .const (.exhausted (D.looping h (by rw [Node.isLoop, hkind])))
  | succ turns ih =>
    refine .bind (.own fun c hc => lookupCounter_upholds h hkind hc) fun current _ => ?_
    refine .bind (.hold (value_keeps hl) _) fun bound _ =>
      .bind (.hold (value_keeps hs) _) fun increment _ => ?_
    refine .bind (.const (.ofExcept (Loop.passed_checked current bound increment))) fun _ _ => ?_
    refine .ite (fun _ => .const (.pure D.flow_done)) fun _ => .bind (.part hb) fun flow hflow => ?_
    have hagain : ((advance counter increment).bind fun _ =>
        forTurns counter limit step body turns).plan.Keeps D D.flow :=
      .bind (advance_keeps h hkind increment) fun _ _ => ih
    rcases flow with _ | _ | _ | v
    · exact hagain
    · exact .const (.pure D.flow_done)
    · exact hagain
    · exact .const (.pure hflow)

theorem forLoop_keeps (h : D.rule n) (hkind : n.kind = .control (.forLoop counter)) (turns : Nat) :
    (forLoop turns counter n).plan.Keeps D D.flow := by
  refine .bind (part_keeps h 0 _) fun start hstart =>
    .bind (part_keeps h 1 _) fun limit hlimit => ?_
  refine .bind (part_keeps h 2 _) fun step hstep => .bind (bodyPart_keeps h _) fun body hbody => ?_
  refine .bind (value_keeps hstart) fun v hv => ?_
  refine .bind (.own fun c hc => setCounter_upholds h hkind hc hv) fun _ _ => ?_
  exact forTurns_keeps h hkind hlimit hstep (D.child_body h hbody) turns

end Counting

theorem definition_keeps (kind : ClosureKind) {n : Node} {name : String} {params : List String}
    (h : D.rule n) (hkind : n.kind = .control (kind.control name params)) (tag : String) :
    (definition n tag name params).plan.Keeps D D.flow := by
  have hserial (size : Nat) :
      (Run.take fun m => m.nextSerial).Upholds (D.sized size) fun _ => True :=
    .take fun m hm => ⟨hm.of_eq rfl rfl, trivial⟩
  refine .bind (bodyPart_keeps h _) fun body hbody => .bind (.const (hserial _)) fun serial _ => ?_
  refine .bind (.own fun c hc => .updateScopes fun s hs => ?_) fun _ _ => .const (.pure D.flow_done)
  exact ⟨D.closed h hkind hbody hc hs.1, by simpa using hs.2⟩

theorem leaveCall_keeps {ns : List Node} (h : ∀ n ∈ ns, D.node n) :
    (leaveCall ns).plan.Keeps D D.flow := by
  cases ns with
  | nil => exact .const (.pure D.nothing)
  | cons n ns => exact .bind (value_keeps (h n (by simp))) fun v hv => .const (.pure hv)

theorem array_keeps {ns : List Node} (h : ∀ n ∈ ns, D.node n) :
    (array ns).plan.Keeps D D.value := by
  refine .bind (values_keeps h) fun vs hvs => .const ?_
  refine .andThen (.allocate fun v hv => ?_) fun _ => .pure (D.plain trivial)
  exact hvs v (List.mem_toArray.1 hv)

theorem inclusion_keeps (what : Inclusion) : (inclusion what).plan.Keeps D D.flow := by
  have hinstall {size : Nat} (library : Bundle) (m : Machine) (hm : m.Obeys (D.sized size)) :
      (m.install library).Obeys (D.sized size) := by
    have hstep (serial : Nat) (bs : List Builtin) : ∀ m : Machine, m.Obeys (D.sized size) →
        (∀ b ∈ bs, b ∈ library.contents) →
        (bs.foldl (fun m b => m.defineGlobal b.name (.builtin b serial)) m).Obeys
          (D.sized size) := by
      induction bs with
      | nil => exact fun m hm _ => hm
      | cons b bs ih =>
        intro m hm hbs
        refine ih _ (hm.withScopes ⟨?_, ?_⟩) fun b' hb' => hbs b' (by simp [hb'])
        · exact D.installed (hbs b (by simp)) hm.scopes.1
        · simpa using hm.scopes.2
    exact hstep m.serial _ _ (hm.of_eq rfl rfl) fun b hb => hb
  cases what with
  | library name =>
    refine .const fun {size} => ?_
    split
    · next library _ => exact .andThen (.update (hinstall library)) fun _ => .pure D.flow_done
    · exact .fail (D.reported rfl)
  | script path => exact .bind (.settle []) fun _ _ => .const (runScript_upholds D.flow_done _)

theorem control_keeps {n : Node} {c : Control} (h : D.rule n) (hkind : n.kind = .control c)
    (turns : Nat) :
    (control turns n c).plan.Keeps D D.flow := by
  have hparts : ∀ c ∈ n.children, D.node c := fun c hc => D.child h hc
  cases c with
  | program => exact all_keeps hparts
  | block => exact block_keeps hparts
  | chain => exact chain_keeps hparts
  | branch fallback => exact alone_keeps h
  | whileLoop =>
    refine .bind (part_keeps h 0 _) fun guard hg => .bind (bodyPart_keeps h _) fun body hbody => ?_
    exact whileTurns_keeps (D.looping h (by rw [Node.isLoop, hkind])) hg
      (D.child_body h hbody) turns
  | doLoop =>
    refine .bind (part_keeps h 0 _) fun guard hg => .bind (bodyPart_keeps h _) fun body hbody => ?_
    exact doTurns_keeps (D.looping h (by rw [Node.isLoop, hkind])) hg (D.child_body h hbody) turns
  | forLoop counter => exact forLoop_keeps h hkind turns
  | subroutine name params => exact definition_keeps .subroutine h hkind _
  | function name params => exact definition_keeps .function h hkind _
  | exitLoop => exact .const (.pure trivial)
  | continueLoop => exact .const (.pure trivial)
  | returned => exact leaveCall_keeps hparts
  | inclusion what => exact inclusion_keeps what

/-- The rule for a node of the realm stays in the realm. -/
theorem evaluate_keeps {n : Node} (h : D.rule n) (turns : Nat) :
    (evaluate turns n).plan.Keeps D D.flow := by
  have hparts : ∀ c ∈ n.children, D.node c := fun c hc => D.child h hc
  obtain ⟨kind, children, body⟩ := n
  cases kind with
  | literal l => exact .const (.pure (D.plain (Value.isPlain_ofLiteral l)))
  | name s => exact .bind (.own fun c hc => lookup_upholds h rfl hc) fun v hv => .const (.pure hv)
  | array => exact .bind (array_keeps hparts) fun v hv => .const (.pure hv)
  | call target => exact .bind (callName_keeps h rfl) fun v hv => .const (.pure hv)
  | control c => exact control_keeps h rfl turns

end Planned

/-! ### Runs that stay in a domain -/

section Runs

variable {α : Type} {D : Domain} {P : α → Prop} {self : Evaluator} {stack : CallStack}

/-- The machine and the chain at the start of a call. -/
theorem Machine.Obeys.newScope {m : Machine} {c : Closure} {args : List Value}
    (hm : m.Obeys D.guard) (hc : D.value (.closure c)) (hargs : ∀ v ∈ args, D.value v) :
    (m.newScope (.ofArguments c.params args)).2.Obeys D.guard ∧
      D.chain ((m.newScope (.ofArguments c.params args)).1 :: c.scope) :=
  have hentered := D.entered hc hargs hm.scopes
  ⟨hm.withScopes hentered.1, hentered.2⟩

/-- A call stays in a domain if the body of the function does, as long as there
is room for the call. -/
theorem Closure.enter_upholds {c : Closure} {args : List Value} (hc : D.value (.closure c))
    (hargs : ∀ v ∈ args, D.value v)
    (hbody : stack.isFull = false → ∀ id, D.chain (id :: c.scope) →
      (self (stack.push (id :: c.scope)) c.body).Upholds D.guard D.flow) :
    (c.enter self stack args).Upholds D.guard D.value := by
  unfold enter
  refine .andThen (c.checkCount_upholds D.reported _) fun _ => ?_
  split
  · exact .fail (D.reported rfl)
  · next hroom =>
    have hnew : (Run.take fun m => m.newScope (.ofArguments c.params args)).Upholds D.guard
        fun id => D.chain (id :: c.scope) := .take fun m hm => hm.newScope hc hargs
    refine .bind hnew fun id hid => ?_
    exact .bind (hbody (by simpa using hroom) id hid) fun flow hflow =>
      .pure (Realm.value_returnValue hflow)

/-- A plan that stays in a domain, followed with an evaluator that does: at the parts under the same
calls, and at the bodies of functions under one call more. -/
theorem Plan.Keeps.run {p : Plan α} (hp : p.Keeps D.toRealm P) (hchain : D.chain stack.chain)
    (hparts : ∀ held n, D.node n → (self (stack.hold held) n).Upholds D.guard D.flow)
    (hbodies : ∀ held c, D.value (.closure c) → stack.isFull = false →
      ∀ id, D.chain (id :: c.scope) →
      (self ((stack.hold held).push (id :: c.scope)) c.body).Upholds D.guard D.flow) :
    (p.run self stack).Upholds D.guard P := by
  induction p with
  | done a => exact .pure hp
  | own r next ih =>
    obtain ⟨Q, hr, hnext⟩ := hp
    exact .bind (.of_sized (hr _ hchain)) fun b hb => ih b (hnext b hb)
  | settle held next ih => exact .andThen (Run.settle_upholds _) fun _ => ih hp
  | part held n next ih =>
    exact .bind (hparts held n hp.1) fun flow hflow => ih flow (hp.2 flow hflow)
  | call held c args next ih =>
    exact .bind (Closure.enter_upholds hp.1 hp.2.1 (hbodies held c hp.1)) fun v hv =>
      ih v (hp.2.2 v hv)

end Runs

/-! ### Runs that keep to a law -/

/-- A domain that functions do not leave, and in which fuel may be lacking. -/
structure Law extends Domain where
  body : ∀ {c}, value (.closure c) → rule c.body
  lenient : lack := by exact trivial

/-- An evaluator keeps to a law at all nodes that the law allows. -/
def Evaluator.Upholds (L : Law) (self : Evaluator) : Prop :=
  ∀ stack n, L.chain stack.chain → L.rule n → (self stack n).Upholds L.guard L.flow

/-- Evaluation keeps to any law. -/
theorem eval_upholds {L : Law} (fuel : Nat) : (eval fuel).Upholds L := by
  induction fuel with
  | zero => exact fun _ _ _ _ => .exhausted L.lenient
  | succ fuel ih =>
    intro stack n hchain hn
    rw [eval_succ, ← (Planned.evaluate fuel n).runs]
    refine (Planned.evaluate_keeps hn fuel).run hchain (fun held c hc => ?_)
      fun held c hc _ id hid => ?_
    · exact ih (stack.hold held) c hchain (L.follow hc)
    · exact ih _ c.body hid (L.body hc)

/-! ### All that a run leads to -/

/-- A moment that a law allows. -/
structure Moment.Lawful (L : Law) (x : Moment) : Prop where
  chain : L.chain x.stack.chain
  node : L.rule x.node
  machine : x.machine.Obeys L.guard

section Moments

variable {α : Type} {L : Law} {P : α → Prop} {self : Evaluator} {stack : CallStack} {q : Moment}

/-- A call waits for its body only. -/
theorem lawful_of_awaits_enter {c : Closure} {args : List Value} {m : Machine}
    (hc : L.value (.closure c)) (hargs : ∀ v ∈ args, L.value v) (hm : m.Obeys L.guard)
    (h : Awaits self q (fun ev => c.enter ev stack args) m) : q.Lawful L := by
  -- neither the count of the arguments nor the new scope waits for anything
  rcases Awaits.bind (attends_const _) h with h | ⟨_, m', hcount, h⟩
  · exact (not_awaits_const h).elim
  have hm' := c.checkCount_upholds L.reported args.length m hm
  rw [hcount] at hm'
  cases hfull : stack.isFull with
  | true =>
    simp only [hfull, if_true] at h
    exact (not_awaits_const h).elim
  | false =>
    simp only [hfull, Bool.false_eq_true, if_false] at h
    rcases Awaits.bind (attends_const _) h with h | ⟨id, m'', hnew, h⟩
    · exact (not_awaits_const h).elim
    have hstart := hm'.1.newScope hc hargs
    cases hnew
    rcases Awaits.bind (attends_ask _ _) h with h | ⟨_, _, -, h⟩
    · obtain ⟨hstack, hnode, hmachine⟩ := awaits_ask h
      exact ⟨hstack ▸ hstart.2, hnode ▸ L.body hc, hmachine ▸ hstart.1⟩
    · exact (not_awaits_const h).elim

/-- All that a plan waits for keeps to the law. -/
theorem Plan.Keeps.lawful_of_awaits {p : Plan α} (hp : p.Keeps L.toRealm P) (hself : self.Upholds L)
    (hchain : L.chain stack.chain) {m : Machine} (hm : m.Obeys L.guard)
    (h : Awaits self q (fun ev => p.run ev stack) m) : q.Lawful L := by
  -- either the first step waits, or it has ended on a machine that keeps to the
  -- law, and the rest waits
  induction p generalizing m with
  | done a => exact (not_awaits_const h).elim
  | own r next ih =>
    obtain ⟨Q, hr, hnext⟩ := hp
    rcases Awaits.bind (attends_const _) h with h | ⟨b, m', hend, h⟩
    · exact (not_awaits_const h).elim
    · have hm' := Run.Upholds.of_sized (hr _ hchain) m hm
      rw [hend] at hm'
      exact ih b (hnext b hm'.2) hm'.1 h
  | settle held next ih =>
    rcases Awaits.bind (attends_const _) h with h | ⟨_, m', hend, h⟩
    · exact (not_awaits_const h).elim
    · have hm' := Run.settle_upholds (stack.hold held) m hm
      rw [hend] at hm'
      exact ih hp hm'.1 h
  | part held n next ih =>
    rcases Awaits.bind (attends_ask (stack.hold held) n) h with h | ⟨flow, m', hend, h⟩
    · obtain ⟨hstack, hnode, hmachine⟩ := awaits_ask h
      exact ⟨hstack ▸ hchain, hnode ▸ L.follow hp.1, hmachine ▸ hm⟩
    · have hm' := hself (stack.hold held) n hchain (L.follow hp.1) m hm
      rw [hend] at hm'
      exact ih flow (hp.2 flow hm'.2) hm'.1 h
  | call held c args next ih =>
    rcases Awaits.bind (c.attends_enter (stack.hold held) args) h with h | ⟨v, m', hend, h⟩
    · exact lawful_of_awaits_enter hp.1 hp.2.1 hm h
    · have hcall : (c.enter self (stack.hold held) args).Upholds L.guard L.value :=
        Closure.enter_upholds hp.1 hp.2.1 fun _ id hid => hself _ c.body hid (L.body hp.1)
      have hm' := hcall m hm
      rw [hend] at hm'
      exact ih v (hp.2.2 v hm'.2) hm'.1 h

end Moments

namespace Moment.Lawful

variable {L : Law} {p q : Moment}

theorem asks (hp : p.Lawful L) (h : p.Asks q) : q.Lawful L := by
  have hwait : Awaits (eval q.fuel) q (fun ev => p.node.evaluate ev q.fuel p.stack) p.machine := h.2
  simp only [← (Planned.evaluate q.fuel p.node).runs] at hwait
  exact (Planned.evaluate_keeps hp.node q.fuel).lawful_of_awaits (eval_upholds q.fuel) hp.chain
    hp.machine hwait

/-- A law that holds at the start holds at all that a run leads to. -/
theorem visits (hp : p.Lawful L) (h : p.Visits q) : q.Lawful L := by
  induction h with
  | refl => exact hp
  | tail _ hask ih => exact ih.asks hask

/-- It also holds where the evaluation of a node ends. -/
theorem outcome (hp : p.Lawful L) : p.outcome.Upholds L.guard L.flow :=
  eval_upholds p.fuel p.stack p.node hp.chain hp.node p.machine hp.machine

end Moment.Lawful

/-! ### Programs -/

/-- The machine that a run ends on, with a value or with an error. -/
def Outcome.machine? {α : Type} : Outcome α → Option Machine
  | .value _ m => some m
  | .failure _ m => some m
  | .exhausted => none

theorem Outcome.Upholds.machine {α : Type} {G : Guard} {P : α → Prop} {o : Outcome α} {m : Machine}
    (h : o.Upholds G P) (hm : o.machine? = some m) : m.Obeys G := by
  cases o with
  | value a m' =>
    cases hm
    exact h.1
  | failure e m' =>
    cases hm
    exact h.1
  | exhausted => cases hm

/-- The machines around the evaluation of a node: the one that it starts on, and
the one that it ends on. -/
def Moment.Shows (x : Moment) (m : Machine) : Prop := m = x.machine ∨ x.outcome.machine? = some m

theorem Moment.Lawful.shows {L : Law} {x : Moment} (hx : x.Lawful L) {m : Machine} (h : x.Shows m) :
    m.Obeys L.guard := by
  rcases h with rfl | h
  · exact hx.machine
  · exact hx.outcome.machine h

theorem Machine.Executed.next {limit fuel : Nat} {units : List Node} {n : Node} {m m' : Machine}
    (h : m.Executed limit units) (hn : n ∈ units)
    (hm : (eval fuel (.bottom limit) n m).machine? = some m') : m'.Executed limit units := by
  cases hrun : eval fuel (.bottom limit) n m with
  | value f m'' =>
    rw [hrun] at hm
    cases hm
    exact .value h hn hrun
  | failure e m'' =>
    rw [hrun] at hm
    cases hm
    exact .failure h hn hrun
  | exhausted =>
    rw [hrun] at hm
    cases hm

/-- Whatever was executed before, its machine keeps to a law that its nodes keep to. -/
theorem Machine.Executed.obeys {L : Law} {limit : Nat} {units : List Node} {m : Machine}
    (hfresh : ∀ world disk input, (Machine.fresh world disk input).Obeys L.guard)
    (hunits : ∀ n ∈ units, L.rule n) (h : m.Executed limit units) : m.Obeys L.guard := by
  induction h with
  | fresh world disk input => exact hfresh world disk input
  | @value fuel n f m m' _ hn hrun ih =>
    exact (eval_upholds fuel (.bottom limit) n L.top (hunits n hn) m ih).machine (by rw [hrun]; rfl)
  | @failure fuel n e m m' _ hn hrun ih =>
    exact (eval_upholds fuel (.bottom limit) n L.top (hunits n hn) m ih).machine (by rw [hrun]; rfl)

/-- The run of a program keeps to a law if its tree and the machine before it do. -/
theorem Moment.Starts.lawful {L : Law} {tree : Node} {limit : Nat} {start : Moment}
    (hfresh : ∀ world disk input, (Machine.fresh world disk input).Obeys L.guard)
    (htree : L.rule tree) (h : start.Starts tree limit) : start.Lawful L := by
  have hunits : ∀ n ∈ tree :: tree.children, L.rule n :=
    List.forall_mem_cons.2 ⟨htree, fun n hn => L.follow (L.child htree hn)⟩
  exact ⟨h.stack ▸ L.top, hunits _ h.unit, h.machine.obeys hfresh hunits⟩

end LineBasic
