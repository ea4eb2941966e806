import Mathlib.Logic.Relation
import LineBasic.Proofs.Safety

/-!
# Moments of a run

A run evaluates nodes one inside another. A `Moment` is a point at which a node is about to be
evaluated. One moment asks for another if the rule at the first evaluates the second on its
way. No construct catches an error, so this can be seen from outside: an error at the second
would be the end of the first.

* `Moment.outcome` : how evaluating the node ends.
* `Moment.outcomeIf` : how it would end if a part had ended in another way.
* `Moment.Asks` : the rule at a moment evaluates a node at another one.
* `Awaits` : the same for any run that an evaluator takes part in; `Awaits.bind`
  leads through a sequence.
* `Moment.Asks.cases` : what is asked for is a part of the node under the same calls, or the body of
  a function that the rule calls.
-/

namespace LineBasic

/-- A node about to be evaluated. -/
structure Moment where
  fuel : Nat
  stack : CallStack
  node : Node
  machine : Machine

open Classical in
/-- An evaluator with another answer at one moment. -/
noncomputable def Evaluator.answering (self : Evaluator) (q : Moment)
    (o : Outcome Flow) : Evaluator :=
  fun stack n m => if stack = q.stack ∧ n = q.node ∧ m = q.machine then o else self stack n m

namespace Moment

/-- How evaluating the node ends. -/
def outcome (p : Moment) : Outcome Flow := eval p.fuel p.stack p.node p.machine

/-- How evaluating the node would end if evaluating a part ended with `o`. -/
noncomputable def outcomeIf (p q : Moment) (o : Outcome Flow) : Outcome Flow :=
  p.node.evaluate ((eval q.fuel).answering q o) q.fuel p.stack p.machine

/-- Evaluating the node evaluates a part on its way: any error of the part ends it. -/
def Asks (p q : Moment) : Prop :=
  p.fuel = q.fuel + 1 ∧ ∀ e, p.outcomeIf q (.failure e q.machine) = .failure e q.machine

/-- Evaluating the node leads to a moment inside it, at any depth. -/
def Visits : Moment → Moment → Prop := Relation.ReflTransGen Asks

end Moment

/-! ### Waiting for an answer -/

section Awaiting

variable {α β : Type} {self : Evaluator} {q : Moment}

/-- A run on a machine evaluates a node at a moment on its way. -/
def Awaits (self : Evaluator) (q : Moment) (G : Evaluator → Run α) (m : Machine) : Prop :=
  ∀ e, G (self.answering q (.failure e q.machine)) m = .failure e q.machine

/-- A run evaluates the node at a moment, or the answer there does not matter to it. -/
def Attends (self : Evaluator) (q : Moment) (G : Evaluator → Run α) : Prop :=
  ∀ m, Awaits self q G m ∨ ∀ o, G (self.answering q o) m = G self m

theorem not_forall_failure {o : Outcome α} {m : Machine} (h : ∀ e, o = .failure e m) : False := by
  have first := h (.recursionLimit 0)
  have second := h (.recursionLimit 1)
  rw [first] at second
  cases second

theorem awaits_ask {stack : CallStack} {n : Node} {m : Machine}
    (h : Awaits self q (fun ev => ev stack n) m) :
    stack = q.stack ∧ n = q.node ∧ m = q.machine := by
  by_contra hne
  have hfail : ∀ e, self stack n m = .failure e q.machine := by
    intro e
    rw [← h e]
    exact (if_neg hne).symm
  exact not_forall_failure hfail

theorem attends_ask (stack : CallStack) (n : Node) : Attends self q fun ev => ev stack n := by
  intro m
  by_cases h : stack = q.stack ∧ n = q.node ∧ m = q.machine
  · exact .inl fun e => if_pos h
  · exact .inr fun o => if_neg h

/-- One run after another waits in the first one, or in the second after the end of the first. -/
theorem Awaits.bind {G : Evaluator → Run α} {H : Evaluator → α → Run β} {m : Machine}
    (hG : Attends self q G) (h : Awaits self q (fun ev => G ev >>= H ev) m) :
    Awaits self q G m ∨
      ∃ a m', G self m = .value a m' ∧ Awaits self q (fun ev => H ev a) m' := by
  rcases hG m with hwait | hfree
  · exact .inl hwait
  · right
    have hbind :
        ∀ e, ((fun _ => G self m : Run α) >>= H (self.answering q (.failure e q.machine))) m
        = .failure e q.machine := by
      intro e
      rw [← h e, ← hfree (.failure e q.machine)]
      rfl
    cases hm : G self m with
    | value a m' =>
      simp only [hm] at hbind
      exact ⟨a, m', rfl, hbind⟩
    | failure e' m' =>
      simp only [hm] at hbind
      exact (not_forall_failure hbind).elim
    | exhausted =>
      simp only [hm] at hbind
      exact (not_forall_failure hbind).elim

/-- What does not evaluate anything does not wait. -/
theorem not_awaits_const {r : Run α} {m : Machine} (h : Awaits self q (fun _ => r) m) : False :=
  not_forall_failure h

theorem attends_const (r : Run α) : Attends self q fun _ => r := fun _ => .inr fun _ => rfl

theorem Attends.bind {G : Evaluator → Run α} {H : Evaluator → α → Run β} (hG : Attends self q G)
    (hH : ∀ a, Attends self q fun ev => H ev a) : Attends self q fun ev => G ev >>= H ev := by
  intro m
  rcases hG m with hwait | hfree
  · left
    intro e
    simp only [Run.bind_apply, hwait e]
  · simp only [Awaits, Run.bind_apply, hfree]
    cases G self m with
    | value a m' => exact hH a m'
    | failure e m' => exact .inr fun _ => rfl
    | exhausted => exact .inr fun _ => rfl

theorem attends_value (stack : CallStack) (n : Node) :
    Attends self q fun ev => ev.value stack n :=
  (attends_ask stack n).bind fun _ => attends_const _

theorem attends_truth (stack : CallStack) (n : Node) :
    Attends self q fun ev => ev.truth stack n :=
  (attends_value stack n).bind fun _ => attends_const _

theorem awaits_value {stack : CallStack} {n : Node} {m : Machine}
    (h : Awaits self q (fun ev => ev.value stack n) m) : n = q.node := by
  rcases Awaits.bind (attends_ask stack n) h with h | ⟨f, m', -, h⟩
  · exact (awaits_ask h).2.1
  · exact (not_awaits_const h).elim

theorem awaits_truth {stack : CallStack} {n : Node} {m : Machine}
    (h : Awaits self q (fun ev => ev.truth stack n) m) : n = q.node := by
  rcases Awaits.bind (attends_value stack n) h with h | ⟨v, m', -, h⟩
  · exact awaits_value h
  · exact (not_awaits_const h).elim

end Awaiting

/-! ### Other answers -/

theorem Run.bind_congr {α β : Type} {r : Run α} {f g : α → Run β} (h : ∀ a m, f a m = g a m)
    (m : Machine) : (r >>= f) m = (r >>= g) m := by
  rw [Run.bind_apply, Run.bind_apply]
  cases r m with
  | value a m' => exact h a m'
  | failure e m' => rfl
  | exhausted => rfl

section Answering

variable {self : Evaluator} {q : Moment} {o : Outcome Flow} {stack : CallStack} {n : Node}

theorem answering_self : self.answering q o q.stack q.node q.machine = o := if_pos ⟨rfl, rfl, rfl⟩

theorem answering_of_ne (h : n ≠ q.node) : self.answering q o stack n = self stack n := by
  funext m
  exact if_neg fun heq => h heq.2.1

theorem value_answering (h : n ≠ q.node) :
    (self.answering q o).value stack n = self.value stack n := by
  rw [Evaluator.value, answering_of_ne h, Evaluator.value]

theorem truth_answering (h : n ≠ q.node) :
    (self.answering q o).truth stack n = self.truth stack n := by
  rw [Evaluator.truth, value_answering h, Evaluator.truth]

end Answering

/-! ### What is asked for -/

/-- A moment is the start of a call that another one makes, while values are kept aside. -/
def Moment.Calls (p q : Moment) (held : List Value) (c : Closure) (args : List Value)
    (m : Machine) :
    Prop :=
  Closure.Callable p.stack c args ∧ m.Sound ∧ q.stack = (p.stack.hold held).push (c.chainIn m) ∧
    q.node = c.body ∧ q.machine = c.entry args m

namespace Moment

theorem Calls.sound {p q : Moment} {held : List Value} {c : Closure} {args : List Value}
    {m : Machine} (h : p.Calls q held c args m) : q.machine.Sound ∧ q.node.Fits .call := by
  obtain ⟨hc, hm, -, hnode, hmachine⟩ := h
  rw [hnode, hmachine]
  exact ⟨hm.newScope (.ofArguments hc.arguments), hc.sound.2⟩

theorem Calls.frames_ne {p q : Moment} {held : List Value} {c : Closure} {args : List Value}
    {m : Machine} (h : p.Calls q held c args m) : q.stack.frames ≠ p.stack.frames := by
  obtain ⟨-, -, hstack, -, -⟩ := h
  intro heq
  rw [hstack] at heq
  exact List.cons_ne_self _ _ heq

/-- A rule asks for parts of its node under the same calls, and for the bodies of the
functions that it calls. Both are asked for on sound machines only. Values are kept aside for
expressions and for calls. -/
theorem Asks.cases {place : Place} {p q : Moment} (fit : p.node.Fits place)
    (sound : p.machine.Sound) (h : p.Asks q) :
    ((q.stack = p.stack ∨ (∃ held, q.stack = p.stack.hold held) ∧ q.node.Expression) ∧
        q.node ∈ p.node.parts ∧ q.machine.Sound) ∨
      ∃ held c args m, p.Calls q held c args m := by
  -- otherwise the evaluator stays safe with an internal error as its answer at `q`
  by_contra hother
  have hsafe : ((eval q.fuel).answering q (.failure (.run (.malformed "")) q.machine)).SafeFor
      p.stack p.node.parts := by
    constructor
    · intro n hn place' hfit m hm
      unfold Evaluator.answering
      split
      · next heq =>
        obtain ⟨hstack, rfl, rfl⟩ := heq
        exact absurd (.inl ⟨.inl hstack.symm, hn, hm⟩) hother
      · exact eval_safe q.fuel hfit p.stack m hm
    · intro held n hn he m hm
      unfold Evaluator.answering
      split
      · next heq =>
        obtain ⟨hstack, rfl, rfl⟩ := heq
        exact absurd (.inl ⟨.inr ⟨⟨held, hstack.symm⟩, he⟩, hn, hm⟩) hother
      · exact eval_safe q.fuel (.expression he) _ m hm
    · intro held c args hc m hm
      unfold Evaluator.answering
      split
      · next heq =>
        obtain ⟨hstack, hnode, hmachine⟩ := heq
        exact absurd
          (.inr ⟨held, c, args, m, hc, hm, hstack.symm, hnode.symm, hmachine.symm⟩) hother
      · exact eval_safe q.fuel hc.sound.2 _ _ (hm.newScope (.ofArguments hc.arguments))
  have hend := Node.evaluate_safe fit hsafe q.fuel _ sound
  have hask := h.2 (.run (.malformed ""))
  unfold outcomeIf at hask
  rw [hask] at hend
  exact absurd hend.2 (by decide)

end Moment
end LineBasic
