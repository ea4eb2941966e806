import Mathlib.Tactic.ByContra
import LineBasic.Proofs.Plans

/-!
# The frames of calls

Evaluation hands the calls under way down to each rule. Here their frames are kept in one register
instead, which is changed in place: a call pushes a frame and pops one when its body ends, and
nothing else touches the register. An error that is not caught leaves it as it is at that point, so
it is not evident that the frames are what they were before.

* `Register` : the frames, and what they were before each change.
* `Framed` : computations with a register; `Framed.within` pushes and pops.
* `Plan.framed`, `Framed.eval` : evaluation with a register.
* `Framed.Mirrors` : a computation ends as a run under a call stack does, and keeps the frames.
  `Plan.mirrors_framed` is the step, `Framed.mirrors_eval` is the whole evaluation.
* `frame_discipline` : frames are kept, and calls fail exactly if there is no room for one more.
-/

namespace LineBasic

/-- The frames of the calls under way, the innermost first, and what they were before each
change, the latest first. -/
structure Register where
  frames : List Chain
  past : List (List Chain)

namespace Register

/-- The chain that names are looked up in. -/
def chain (r : Register) : Chain := r.frames.headD [Scopes.global]

/-- One more frame. -/
def push (r : Register) (c : Chain) : Register := ⟨c :: r.frames, r.frames :: r.past⟩

/-- One frame less. -/
def pop (r : Register) : Register := ⟨r.frames.tail, r.frames :: r.past⟩

end Register

/-- A computation on a machine that can change the frames. -/
def Framed (α : Type) := Register → Machine → Register × Outcome α

namespace Framed

variable {α β : Type}

/-- One computation after another. An error ends both, with the register as it then is. -/
def bind (x : Framed α) (f : α → Framed β) : Framed β := fun r m =>
  match x r m with
  | (r', .value a m') => f a r' m'
  | (r', .failure e m') => (r', .failure e m')
  | (r', .exhausted) => (r', .exhausted)

instance : Monad Framed where
  pure a := fun r m => (r, .value a m)
  bind := Framed.bind

/-- A run in the innermost frame. -/
def lift (run : Chain → Run α) : Framed α := fun r m => (r, run r.chain m)

/-- Fails if there is no room for one more call. -/
def room (limit : Nat) : Framed Unit := fun r m =>
  if limit < r.frames.length then (r, .failure (.recursionLimit limit) m) else (r, .value () m)

/-- A computation in a frame of its own, which is popped whatever the end is. -/
def within (c : Chain) (x : Framed α) : Framed α := fun r m =>
  match x (r.push c) m with
  | (r', o) => (r'.pop, o)

/-- What was dropped is written out, as the frames and the values kept aside say. -/
def settle (limit : Nat) (held : List Value) : Framed Unit := fun r m =>
  (r, Run.settle ⟨limit, r.frames, held⟩ m)

/-- A function of the program applied to values, while others are kept aside. -/
def call (limit : Nat) (self : List Value → Node → Framed Flow) (held : List Value) (c : Closure)
    (args : List Value) : Framed Value := do
  lift fun _ => c.checkCount args.length
  room limit
  let id ← lift fun _ => Run.take fun m => m.newScope (.ofArguments c.params args)
  let flow ← within (id :: c.scope) (self held c.body)
  return flow.returnValue

end Framed

/-- The computation that follows a plan. -/
def Plan.framed {α : Type} (limit : Nat) (self : List Value → Node → Framed Flow)
    (held : List Value) :
    Plan α → Framed α
  | done a => pure a
  | own r next => Framed.lift r >>= fun b => (next b).framed limit self held
  | settle more next => Framed.settle limit (more ++ held) >>= fun _ => next.framed limit self held
  | part more n next => self (more ++ held) n >>= fun flow => (next flow).framed limit self held
  | call more c args next =>
    Framed.call limit self (more ++ held) c args >>= fun v => (next v).framed limit self held

/-- Evaluation of nodes with the frames in a register. -/
def Framed.eval (limit : Nat) : Nat → List Value → Node → Framed Flow
  | 0, _, _ => Framed.lift fun _ => Run.exhausted
  | fuel + 1, held, n => (Planned.evaluate fuel n).plan.framed limit (Framed.eval limit fuel) held

/-! ### Frames are kept -/

namespace Framed

/-- A computation ends as a run does and leaves the frames as they are. On its way it only adds to
them, as far as the limit allows. -/
def Mirrors {α : Type} (limit : Nat) (frames : List Chain) (x : Framed α) (run : Run α) : Prop :=
  ∀ past m, ∃ seen, x ⟨frames, past⟩ m = (⟨frames, seen ++ past⟩, run m) ∧
    ∀ contents ∈ seen, frames <:+ contents ∧ contents.length ≤ limit + 1

/-- Nodes are evaluated as an evaluator does it, and keep the frames. -/
def MirrorsAll (limit : Nat) (self : List Value → Node → Framed Flow) (ev : Evaluator) : Prop :=
  ∀ frames : List Chain, frames.length ≤ limit + 1 →
    ∀ held n, Mirrors limit frames (self held n) (ev ⟨limit, frames, held⟩ n)

variable {α β : Type} {limit : Nat} {frames : List Chain} {held : List Value}

theorem mirrors_lift (run : Chain → Run α) (held : List Value) :
    Mirrors limit frames (lift run) (run (CallStack.chain ⟨limit, frames, held⟩)) :=
  fun _ _ => ⟨[], rfl, by simp⟩

theorem mirrors_pure (a : α) : Mirrors limit frames (pure a) (pure a) :=
  mirrors_lift (fun _ => pure a) []

theorem mirrors_settle (held : List Value) :
    Mirrors limit frames (settle limit held) (Run.settle ⟨limit, frames, held⟩) :=
  fun _ _ => ⟨[], rfl, by simp⟩

theorem Mirrors.bind {x : Framed α} {run : Run α} {f : α → Framed β} {g : α → Run β}
    (hx : Mirrors limit frames x run) (hf : ∀ a, Mirrors limit frames (f a) (g a)) :
    Mirrors limit frames (x >>= f) (run >>= g) := by
  intro past m
  obtain ⟨seen, hend, hseen⟩ := hx past m
  show ∃ seen, Framed.bind x f _ m = _ ∧ _
  rw [Framed.bind, hend, Run.bind_apply]
  cases run m with
  | value a m' =>
    obtain ⟨seen', hend', hseen'⟩ := hf a (seen ++ past) m'
    refine ⟨seen' ++ seen, ?_, ?_⟩
    · rw [List.append_assoc]
      exact hend'
    · intro contents hmem
      rcases List.mem_append.1 hmem with hmem | hmem
      · exact hseen' contents hmem
      · exact hseen contents hmem
  | failure e m' => exact ⟨seen, rfl, hseen⟩
  | exhausted => exact ⟨seen, rfl, hseen⟩

/-- The frame that is pushed for a computation is popped after it. -/
theorem Mirrors.within {c : Chain} {x : Framed α} {run : Run α}
    (hx : Mirrors limit (c :: frames) x run) (hroom : frames.length ≤ limit) :
    Mirrors limit frames (within c x) run := by
  intro past m
  obtain ⟨seen, hend, hseen⟩ := hx (frames :: past) m
  refine ⟨(c :: frames) :: seen ++ [frames], ?_, ?_⟩
  · simp only [Framed.within, Register.push, hend, Register.pop, List.tail_cons, List.cons_append,
      List.append_assoc, List.nil_append]
  · have hpushed : frames <:+ c :: frames := List.suffix_cons c frames
    intro contents hmem
    rcases List.mem_append.1 hmem with hmem | hmem
    · rcases List.mem_cons.1 hmem with rfl | hmem
      · exact ⟨hpushed, Nat.succ_le_succ hroom⟩
      · exact ⟨hpushed.trans (hseen contents hmem).1, (hseen contents hmem).2⟩
    · rw [List.mem_singleton.1 hmem]
      exact ⟨List.suffix_refl _, Nat.le_succ_of_le hroom⟩

theorem mirrors_room (hroom : frames.length ≤ limit) :
    Mirrors limit frames (room limit) (pure ()) := by
  intro past m
  refine ⟨[], ?_, by simp⟩
  rw [room, if_neg (Nat.not_lt.2 hroom)]
  rfl

theorem room_of_full (h : limit < frames.length) (past : List (List Chain)) (m : Machine) :
    room limit ⟨frames, past⟩ m = (⟨frames, past⟩, .failure (.recursionLimit limit) m) :=
  if_pos h

/-- A call of a function does what the rule says, if its body is evaluated as the rule says. -/
theorem mirrors_call {self : List Value → Node → Framed Flow} {ev : Evaluator}
    (hself : MirrorsAll limit self ev) (held : List Value) (c : Closure) (args : List Value) :
    Mirrors limit frames (call limit self held c args) (c.enter ev ⟨limit, frames, held⟩ args) := by
  refine (mirrors_lift (fun _ => c.checkCount args.length) held).bind fun _ => ?_
  by_cases hfull : limit < frames.length
  · intro past m
    refine ⟨[], ?_, by simp⟩
    show Framed.bind (room limit) _ _ m = _
    rw [Framed.bind, room_of_full hfull]
    simp only [CallStack.isFull, hfull, decide_true, if_true]
    rfl
  · have hroom : frames.length ≤ limit := Nat.not_lt.1 hfull
    have hbody (id : ScopeId) : Mirrors limit frames (within (id :: c.scope) (self held c.body))
        (ev ⟨limit, (id :: c.scope) :: frames, held⟩ c.body) :=
      (hself ((id :: c.scope) :: frames) (Nat.succ_le_succ hroom) held c.body).within hroom
    have hnew : Mirrors limit frames _ _ :=
      mirrors_lift (fun _ => Run.take fun m => m.newScope (.ofArguments c.params args)) held
    have hcall := (mirrors_room hroom).bind fun _ => hnew.bind fun id => (hbody id).bind fun flow =>
      mirrors_pure flow.returnValue
    simp only [CallStack.isFull, hfull, decide_false, Bool.false_eq_true, if_false]
    exact hcall

end Framed

open Framed

/-- A plan keeps the frames if the evaluation of nodes does. -/
theorem Plan.mirrors_framed {α : Type} {limit : Nat} {frames : List Chain}
    {self : List Value → Node → Framed Flow} {ev : Evaluator} (hself : MirrorsAll limit self ev)
    (hroom : frames.length ≤ limit + 1) (held : List Value) (p : Plan α) :
    Mirrors limit frames (p.framed limit self held) (p.run ev ⟨limit, frames, held⟩) := by
  induction p with
  | done a => exact mirrors_pure a
  | own r next ih => exact (mirrors_lift r held).bind ih
  | settle more next ih => exact (mirrors_settle (more ++ held)).bind fun _ => ih
  | part more n next ih => exact (hself frames hroom (more ++ held) n).bind ih
  | call more c args next ih => exact (mirrors_call hself (more ++ held) c args).bind ih

/-- Evaluation with a register ends as evaluation does, and keeps the frames. -/
theorem Framed.mirrorsAll_eval (limit fuel : Nat) :
    MirrorsAll limit (Framed.eval limit fuel) (LineBasic.eval fuel) := by
  induction fuel with
  | zero => exact fun _ _ _ _ => mirrors_lift (fun _ => Run.exhausted) []
  | succ fuel ih =>
    intro frames hroom held n
    rw [eval_succ, ← (Planned.evaluate fuel n).runs]
    exact Plan.mirrors_framed ih hroom held _

/-! ### The limit -/

section Limit

variable {limit : Nat} {frames : List Chain} {held : List Value} {c : Closure} {args : List Value}

/-- With room for a call the body is run: if it does not end, neither does the call. -/
theorem Closure.enter_exhausted (h : args.length = c.params.length) (hroom : frames.length ≤ limit)
    (m : Machine) :
    c.enter (fun _ _ => Run.exhausted) ⟨limit, frames, held⟩ args m = .exhausted := by
  have hopen : CallStack.isFull ⟨limit, frames, held⟩ = false :=
    decide_eq_false (Nat.not_lt.2 hroom)
  rw [enter, checkCount, if_pos h, Run.pure_bind, hopen]
  rfl

theorem Closure.enter_of_full (h : args.length = c.params.length) (hfull : limit < frames.length)
    (self : Evaluator) (m : Machine) :
    c.enter self ⟨limit, frames, held⟩ args m = .failure (.recursionLimit limit) m := by
  have hclosed : CallStack.isFull ⟨limit, frames, held⟩ = true := decide_eq_true hfull
  rw [enter, checkCount, if_pos h, Run.pure_bind, hclosed]
  rfl

theorem Framed.call_exhausted (h : args.length = c.params.length) (hroom : frames.length ≤ limit)
    (past : List (List Chain)) (m : Machine) :
    (Framed.call limit (fun _ _ => lift fun _ => Run.exhausted) held c args ⟨frames, past⟩ m).2 =
      .exhausted := by
  have hself : MirrorsAll limit (fun _ _ => lift fun _ => Run.exhausted) fun _ _ => Run.exhausted :=
    fun _ _ _ _ => mirrors_lift _ []
  obtain ⟨seen, hend, -⟩ := mirrors_call hself held c args past m
  rw [hend]
  exact c.enter_exhausted h hroom m

theorem Framed.call_of_full (h : args.length = c.params.length) (hfull : limit < frames.length)
    (self : List Value → Node → Framed Flow) (past : List (List Chain)) (m : Machine) :
    Framed.call limit self held c args ⟨frames, past⟩ m =
      (⟨frames, past⟩, .failure (.recursionLimit limit) m) := by
  have hcount : c.checkCount args.length = pure () := if_pos h
  show Framed.bind (lift _) _ _ m = _
  rw [Framed.bind, lift, hcount]
  show Framed.bind (room _) _ _ m = _
  rw [Framed.bind, room_of_full hfull]

/-- A call fails for lack of room, whatever its body does, exactly if there is none. -/
theorem Closure.enter_fails_iff (h : args.length = c.params.length)
    (bounded : frames.length ≤ limit + 1) (m : Machine) :
    (∀ self, c.enter self ⟨limit, frames, held⟩ args m = .failure (.recursionLimit limit) m) ↔
      frames.length = limit + 1 := by
  constructor
  · intro hfails
    by_contra hne
    have hend : c.enter (fun _ _ => Run.exhausted) ⟨limit, frames, held⟩ args m = .exhausted :=
      c.enter_exhausted h (by omega) m
    rw [hfails] at hend
    cases hend
  · intro hfull self
    exact c.enter_of_full h (by omega) self m

theorem Framed.call_fails_iff (h : args.length = c.params.length)
    (bounded : frames.length ≤ limit + 1) (past : List (List Chain)) (m : Machine) :
    (∀ self, Framed.call limit self held c args ⟨frames, past⟩ m =
        (⟨frames, past⟩, .failure (.recursionLimit limit) m)) ↔
      frames.length = limit + 1 := by
  constructor
  · intro hfails
    by_contra hne
    have hend : (Framed.call limit (fun _ _ => lift fun _ => Run.exhausted) held c args
        ⟨frames, past⟩ m).2 = .exhausted := Framed.call_exhausted h (by omega) past m
    rw [hfails] at hend
    cases hend
  · intro hfull self
    exact Framed.call_of_full h (by omega) self past m

end Limit

/-- Evaluation with the frames in a register gives what evaluation gives. Whether it ends with a
value, with a signal or with an error, the frames are then what they were, and at no time before
were they more than the limit allows or anything but the same frames with others on top. A
function that is applied to as many values as it takes fails for lack of room, before its body,
exactly if there is a frame for each call that is allowed and for the top level. All this whatever
values are kept aside. -/
theorem frame_discipline (limit : Nat) (frames : List Chain) (bounded : frames.length ≤ limit + 1)
    (held : List Value) :
    (∀ fuel n m, ∃ past, Framed.eval limit fuel held n ⟨frames, []⟩ m =
        (⟨frames, past⟩, eval fuel ⟨limit, frames, held⟩ n m) ∧
      ∀ contents ∈ past, frames <:+ contents ∧ contents.length ≤ limit + 1) ∧
    ∀ (c : Closure) (args : List Value), args.length = c.params.length →
      (∀ fuel m, ∃ past, Framed.call limit (Framed.eval limit fuel) held c args ⟨frames, []⟩ m =
          (⟨frames, past⟩, c.enter (eval fuel) ⟨limit, frames, held⟩ args m) ∧
        ∀ contents ∈ past, frames <:+ contents ∧ contents.length ≤ limit + 1) ∧
      ∀ m, ((∀ self,
        c.enter self ⟨limit, frames, held⟩ args m = .failure (.recursionLimit limit) m) ↔
          frames.length = limit + 1) ∧
        ((∀ self, Framed.call limit self held c args ⟨frames, []⟩ m =
            (⟨frames, []⟩, .failure (.recursionLimit limit) m)) ↔
          frames.length = limit + 1) := by
  have hself (fuel : Nat) : MirrorsAll limit (Framed.eval limit fuel) (eval fuel) :=
    Framed.mirrorsAll_eval limit fuel
  refine ⟨fun fuel n m => ?_, fun c args hcount => ⟨fun fuel m => ?_, fun m => ⟨?_, ?_⟩⟩⟩
  · simpa using hself fuel frames bounded held n [] m
  · have hcall : Mirrors limit frames _ _ := mirrors_call (hself fuel) held c args
    simpa using hcall [] m
  · exact c.enter_fails_iff hcount bounded m
  · exact Framed.call_fails_iff hcount bounded [] m

/-- A function that calls itself without end: the error comes from the second call, and the frames
are those of the top level again. With no call allowed, the first one fails at once. -/
theorem frame_discipline_runaway :
    let c : Closure := ⟨1, "F", [], .call "F" [], [Scopes.global]⟩
    let m : Machine := ⟨#[⟨[("F", .closure c)]⟩], #[], #[], .empty, .ofOctets [], "", 2, .still, 0⟩
    let frames : List Chain := [[Scopes.global]]
    (∃ past m', Framed.eval 1 3 [] (.call "F" []) ⟨frames, []⟩ m =
        (⟨frames, past⟩, .failure (.recursionLimit 1) m') ∧
      ∀ contents ∈ past, frames <:+ contents ∧ contents.length ≤ 2) ∧
    ∀ self, c.enter self ⟨0, frames, []⟩ [] m = .failure (.recursionLimit 0) m := by
  intro c m frames
  constructor
  · obtain ⟨past, hend, hpast⟩ := (frame_discipline 1 frames (by decide) []).1 3 (.call "F" []) m
    have hfails : ∃ m', eval 3 ⟨1, frames, []⟩ (.call "F" []) m = .failure (.recursionLimit 1) m' :=
      ⟨_, by with_unfolding_all rfl⟩
    obtain ⟨m', hfails⟩ := hfails
    exact ⟨past, m', hfails ▸ hend, hpast⟩
  · have hcalls := (frame_discipline 0 frames (by decide) []).2 c [] rfl
    exact (hcalls.2 m).1.2 rfl

end LineBasic
