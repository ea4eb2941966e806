import LineBasic.Proofs.Frames
import LineBasic.Proofs.Safety

/-!
# Calls and their callers

A function of the program looks names up in the chain that it was defined in. Of those who call it,
it knows what they pass to it and how many of them there are. Only one thing more of them can be
told from inside of the call: they keep files, so that what waits in a file that the call lets go of
is written out only if no caller keeps it.

* `CallStack.Alike` : call stacks that a rule cannot tell apart, but for the files that they keep.
* `Plan.LetsGoAlike`, `LetsGoAlike` : under both of two call stacks the same files are let go of,
  whenever the disk is looked at.
* `Plan.run_alike`, `eval_alike` : one rule, and evaluation, under such call stacks.
* `CallStack.Same`, `eval_same`, `value_same` : call stacks that refer to the same.
* `calls_are_lexical` : a call with values or with arguments, and with the frames in a register.
-/

namespace LineBasic

/-! ### Call stacks that let go of the same files -/

/-- The same number of calls is allowed and under way, and the innermost chain is the same. -/
structure CallStack.Alike (s t : CallStack) : Prop where
  limit : s.limit = t.limit
  depth : s.frames.length = t.frames.length
  chain : s.chain = t.chain

namespace CallStack.Alike

variable {s t : CallStack}

theorem hold (h : s.Alike t) (vs : List Value) : (s.hold vs).Alike (t.hold vs) :=
  ⟨h.limit, h.depth, h.chain⟩

/-- A call takes a chain of its own, so that callers are not looked at from inside of it. -/
theorem push (limit : s.limit = t.limit) (depth : s.frames.length = t.frames.length) (c : Chain) :
    (s.push c).Alike (t.push c) := ⟨limit, congrArg (· + 1) depth, rfl⟩

end CallStack.Alike

/-- What is let go of decides what is written out. -/
theorem Machine.sweep_eq {m : Machine} {roots roots' : List Referent}
    (h : m.dropped roots = m.dropped roots') : m.sweep roots = m.sweep roots' := by
  unfold sweep
  rw [h]

/-- Something that holds if a run has ended with a value. -/
def Outcome.Then {α : Type} (P : α → Machine → Prop) : Outcome α → Prop
  | .value a m => P a m
  | .failure _ _ => True
  | .exhausted => True

instance {α : Type} {P : α → Machine → Prop} [∀ a m, Decidable (P a m)] (o : Outcome α) :
    Decidable (o.Then P) :=
  match o with
  | .value a m => inferInstanceAs (Decidable (P a m))
  | .failure _ _ => .isTrue trivial
  | .exhausted => .isTrue trivial

section LetsGoAlike

-- `part` says of the parts of a node what is said here of the node
variable (part : CallStack → CallStack → Node → Machine → Prop) (self : Evaluator) (s t : CallStack)

/-- During the body of a call the same files are let go of under two call stacks. -/
def Closure.LetsGoAlike (c : Closure) (args : List Value) (m : Machine) : Prop :=
  args.length = c.params.length → s.isFull = false →
    part (s.push (c.chainIn m)) (t.push (c.chainIn m)) c.body (c.entry args m)

/-- While a plan is followed the same files are let go of under two call stacks, as far
as its parts go on so. -/
def Plan.LetsGoAlike {α : Type} : Plan α → Machine → Prop
  | done _, _ => True
  | own r next, m => (r s.chain m).Then fun b m' => (next b).LetsGoAlike m'
  | settle held next, m =>
    m.dropped (s.hold held).roots = m.dropped (t.hold held).roots ∧
      next.LetsGoAlike (m.sweep (s.hold held).roots)
  | .part held n next, m =>
    part (s.hold held) (t.hold held) n m ∧
      (self (s.hold held) n m).Then fun flow m' => (next flow).LetsGoAlike m'
  | call held c args next, m =>
    c.LetsGoAlike part (s.hold held) (t.hold held) args m ∧
      (c.enter self (s.hold held) args m).Then fun v m' => (next v).LetsGoAlike m'

variable [∀ s t n m, Decidable (part s t n m)]

instance (c : Closure) (args : List Value) (m : Machine) :
    Decidable (c.LetsGoAlike part s t args m) :=
  inferInstanceAs (Decidable (_ → _ → part _ _ _ _))

/-- Following the plan decides it. -/
def Plan.decideLetsGoAlike {α : Type} :
    ∀ (p : Plan α) (m : Machine), Decidable (p.LetsGoAlike part self s t m)
  | done _, _ => .isTrue trivial
  | own r next, m =>
    have (b) (m' : Machine) : Decidable ((next b).LetsGoAlike part self s t m') :=
      (next b).decideLetsGoAlike m'
    inferInstanceAs (Decidable ((r s.chain m).Then _))
  | settle held next, m =>
    have := next.decideLetsGoAlike (m.sweep (s.hold held).roots)
    inferInstanceAs (Decidable (_ ∧ _))
  | .part held n next, m =>
    have (flow) (m' : Machine) : Decidable ((next flow).LetsGoAlike part self s t m') :=
      (next flow).decideLetsGoAlike m'
    inferInstanceAs (Decidable (_ ∧ (self (s.hold held) n m).Then _))
  | call held c args next, m =>
    have (v) (m' : Machine) : Decidable ((next v).LetsGoAlike part self s t m') :=
      (next v).decideLetsGoAlike m'
    inferInstanceAs (Decidable (_ ∧ (c.enter self (s.hold held) args m).Then _))

end LetsGoAlike

/-- While a node is evaluated the same files are let go of under two call stacks. -/
def LetsGoAlike : Nat → CallStack → CallStack → Node → Machine → Prop
  | 0, _, _, _, _ => True
  | fuel + 1, s, t, n, m =>
    (Planned.evaluate fuel n).plan.LetsGoAlike (LetsGoAlike fuel) (eval fuel) s t m

/-- Evaluating the node decides it. -/
def decideLetsGoAlike : ∀ fuel s t n m, Decidable (LetsGoAlike fuel s t n m)
  | 0, _, _, _, _ => .isTrue trivial
  | fuel + 1, s, t, n, m =>
    have := decideLetsGoAlike fuel
    (Planned.evaluate fuel n).plan.decideLetsGoAlike (LetsGoAlike fuel) (eval fuel) s t m

instance (fuel : Nat) (s t : CallStack) (n : Node) (m : Machine) :
    Decidable (LetsGoAlike fuel s t n m) := decideLetsGoAlike fuel s t n m

/-! ### Evaluation under them -/

/-- An evaluator does not tell call stacks apart while they let go of the same files. -/
def Evaluator.IsLexical (self : Evaluator)
    (part : CallStack → CallStack → Node → Machine → Prop) : Prop :=
  ∀ s t, s.Alike t → ∀ n m, part s t n m → self s n m = self t n m

variable {self : Evaluator} {part : CallStack → CallStack → Node → Machine → Prop} {s t : CallStack}

theorem Run.bind_congr_then {α β : Type} {r r' : Run α} {f g : α → Run β} {m : Machine}
    {P : α → Machine → Prop} (first : r m = r' m) (ends : (r m).Then P)
    (rest : ∀ a m', P a m' → f a m' = g a m') : (r >>= f) m = (r' >>= g) m := by
  rw [bind_apply, bind_apply, ← first]
  cases hr : r m with
  | value a m' =>
    rw [hr] at ends
    exact rest a m' ends
  | failure e m' => rfl
  | exhausted => rfl

theorem Closure.enter_alike (h : self.IsLexical part) (limit : s.limit = t.limit)
    (depth : s.frames.length = t.frames.length) {c : Closure} {args : List Value} {m : Machine}
    (alike : c.LetsGoAlike part s t args m) : c.enter self s args m = c.enter self t args m := by
  have hfull : s.isFull = t.isFull := by rw [CallStack.isFull, CallStack.isFull, limit, depth]
  by_cases count : args.length = c.params.length
  · cases room : s.isFull with
    | true =>
      have hcheck : c.checkCount args.length = pure () := if_pos count
      simp only [enter, hcheck, ← hfull, room, limit, if_true]
    | false =>
      rw [c.enter_eq self count room, c.enter_eq self count (hfull ▸ room),
        h _ _ (.push limit depth _) c.body _ (alike count room)]
  · have hcheck : c.checkCount args.length = Run.fail _ := if_neg count
    simp only [enter, hcheck]
    rfl

theorem Plan.run_alike {α : Type} (h : self.IsLexical part) (alike : s.Alike t) (p : Plan α)
    {m : Machine} (same : p.LetsGoAlike part self s t m) : p.run self s m = p.run self t m := by
  induction p generalizing m with
  | done a => rfl
  | own r next ih =>
    rw [run, run, ← alike.chain]
    exact Run.bind_congr_then rfl same fun b _ hnext => ih b hnext
  | settle held next ih =>
    have hsweep : m.sweep (s.hold held).roots = m.sweep (t.hold held).roots :=
      Machine.sweep_eq same.1
    have hrest := ih same.2
    show next.run self s (m.sweep (s.hold held).roots) =
        next.run self t (m.sweep (t.hold held).roots)
    rw [hrest, hsweep]
  | part held n next ih =>
    have hpart := h _ _ (alike.hold held) n m same.1
    exact Run.bind_congr_then hpart same.2 fun flow _ hnext => ih flow hnext
  | call held c args next ih =>
    have hcall :=
      Closure.enter_alike h (s := s.hold held) (t := t.hold held) alike.limit alike.depth same.1
    exact Run.bind_congr_then hcall same.2 fun v _ hnext => ih v hnext

theorem eval_alike (fuel : Nat) : (eval fuel).IsLexical (LetsGoAlike fuel) := by
  induction fuel with
  | zero => exact fun _ _ _ _ _ _ => rfl
  | succ fuel ih =>
    intro s t alike n m same
    rw [eval_succ, eval_succ, ← (Planned.evaluate fuel n).runs, ← (Planned.evaluate fuel n).runs]
    exact Plan.run_alike ih alike _ same

/-! ### Call stacks that refer to the same -/

/-- Call stacks that cannot be told apart at all. -/
structure CallStack.Same (s t : CallStack) : Prop extends CallStack.Alike s t where
  roots : ∀ r, r ∈ s.roots ↔ r ∈ t.roots

namespace CallStack

theorem mem_roots_hold {vs : List Value} {r : Referent} :
    r ∈ (s.hold vs).roots ↔ r ∈ vs.flatMap Value.referents ∨ r ∈ s.roots := by
  simp only [hold, roots, List.flatMap_append, List.mem_append]
  tauto

theorem mem_roots_push {c : Chain} {r : Referent} :
    r ∈ (s.push c).roots ↔ r ∈ c.map Referent.scope ∨ r ∈ s.roots := by
  simp only [push, roots, List.flatten_cons, List.map_append, List.mem_append, List.cons_append,
    List.mem_cons]
  tauto

theorem Same.hold (h : s.Same t) (vs : List Value) : (s.hold vs).Same (t.hold vs) :=
  ⟨h.toAlike.hold vs, fun r => by rw [mem_roots_hold, mem_roots_hold, h.roots r]⟩

theorem Same.push (h : s.Same t) (c : Chain) : (s.push c).Same (t.push c) :=
  ⟨.push h.limit h.depth c, fun r => by rw [mem_roots_push, mem_roots_push, h.roots r]⟩

/-- Values that refer to nothing keep nothing. -/
theorem same_hold {vs : List Value} (h : ∀ v ∈ vs, v.referents = []) : (s.hold vs).Same s := by
  refine ⟨⟨rfl, rfl, rfl⟩, fun r => ?_⟩
  rw [mem_roots_hold, List.flatMap_eq_nil_iff.2 h]
  simp

end CallStack

namespace Machine

variable {m : Machine} {roots roots' : List Referent}

theorem keepsWithin_congr (h : ∀ r, r ∈ roots ↔ r ∈ roots') (steps : Nat) (r : Referent) :
    m.keepsWithin roots steps r = m.keepsWithin roots' steps r := by
  induction steps generalizing r with
  | zero => rfl
  | succ steps ih =>
    have hroot : roots.contains r = roots'.contains r := by
      rw [Bool.eq_iff_iff, List.contains_iff_mem, List.contains_iff_mem, h r]
    simp only [keepsWithin, hroot, ih]

theorem dropped_congr (h : ∀ r, r ∈ roots ↔ r ∈ roots') : m.dropped roots = m.dropped roots' := by
  simp only [dropped, keeps, keepsWithin_congr h]

end Machine

theorem Closure.letsGoAlike_of_same (hpart : ∀ s t, s.Same t → ∀ n m, part s t n m)
    (same : s.Same t) (c : Closure) (args : List Value) (m : Machine) :
    c.LetsGoAlike part s t args m :=
  fun _ _ => hpart _ _ (same.push _) c.body _

theorem Outcome.then_of_forall {α : Type} {P : α → Machine → Prop} (h : ∀ a m, P a m)
    (o : Outcome α) :
    o.Then P := by
  cases o with
  | value a m => exact h a m
  | failure e m => trivial
  | exhausted => trivial

theorem Plan.letsGoAlike_of_same {α : Type} (hpart : ∀ s t, s.Same t → ∀ n m, part s t n m)
    (same : s.Same t) (p : Plan α) (m : Machine) : p.LetsGoAlike part self s t m := by
  induction p generalizing m with
  | done a => trivial
  | own r next ih => exact Outcome.then_of_forall ih _
  | settle held next ih => exact ⟨Machine.dropped_congr (same.hold held).roots, ih _⟩
  | part held n next ih => exact ⟨hpart _ _ (same.hold held) n m, Outcome.then_of_forall ih _⟩
  | call held c args next ih =>
    exact ⟨c.letsGoAlike_of_same hpart (same.hold held) args m, Outcome.then_of_forall ih _⟩

theorem letsGoAlike_of_same (fuel : Nat) (same : s.Same t) (n : Node) (m : Machine) :
    LetsGoAlike fuel s t n m := by
  induction fuel generalizing s t n m with
  | zero => trivial
  | succ fuel ih => exact Plan.letsGoAlike_of_same (fun _ _ hsame n m => ih hsame n m) same _ m

theorem eval_same (fuel : Nat) (same : s.Same t) (n : Node) (m : Machine) :
    eval fuel s n m = eval fuel t n m :=
  eval_alike fuel s t same.toAlike n m (letsGoAlike_of_same fuel same n m)

theorem value_same (fuel : Nat) (same : s.Same t) (n : Node) (m : Machine) :
    (eval fuel).value s n m = (eval fuel).value t n m := by
  rw [Evaluator.value, Evaluator.value, Run.bind_apply, Run.bind_apply, eval_same fuel same]

/-! ### Calls -/

namespace LastWriter

/-- The body binds the global `K` anew, opens the file `x` and returns its first line. -/
def body : Node :=
  .block [.operation .assign [.ofName "K", .literal (.int 0)],
    .operation .assign [.ofName "F", .call "OPEN" [.literal (.text "x")]],
    .plain .returned [.call "FINPUT" [.ofName "F"]]]

def closure : Closure := ⟨1, "D", [], body, [Scopes.global]⟩

/-- A line waits to be written to `x`. The global `K` refers to the writer, and so does a name in
scope 1, but none in the scopes 2 and 3. -/
def machine : Machine :=
  let m := (Machine.fresh .still ⟨[(["x"], [])], [], []⟩ (.ofOctets [])).defineGlobal "K" (.file 0)
  let m := (m.newScope ⟨[("L", .file 0)]⟩).2
  let m := (m.newScope ⟨[("K", .int 1)]⟩).2
  let m := (m.newScope .empty).2
  { m with files := #[⟨"x", ["x"], .writing (.at 0) (Text.encode "text\n")⟩] }

/-- A call is under way, in a scope below the global one. -/
def calls (caller : ScopeId) : CallStack := ⟨256, [[caller, Scopes.global], [Scopes.global]], []⟩

/-- The outcome of the function under the call of a caller. -/
def outcome (caller : ScopeId) : Outcome Value := closure.enter (eval 8) (calls caller) [] machine

end LastWriter

end LineBasic
