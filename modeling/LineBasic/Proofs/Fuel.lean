import LineBasic.Proofs.Plans

/-!
# Fuel

An evaluation that ends does not change if it is given more fuel: neither more depth nor more turns
of its loops make a difference.

* `Run.Settles` : one run ends as another does, if it ends at all; closed under `bind`.
* `Plan.run_settles` : a plan followed with more fuel for its parts.
* `Node.evaluate_settles` : the rule for a node, with more turns for its loops.
* `eval_settles` : evaluation with more fuel.
-/

namespace LineBasic

namespace Run

variable {α β : Type}

/-- Where a run does not lack fuel, another one ends in the same way. -/
def Settles (r r' : Run α) : Prop := ∀ m, r m = .exhausted ∨ r m = r' m

theorem Settles.refl (r : Run α) : r.Settles r := fun _ => .inr rfl

theorem Settles.trans {r r' r'' : Run α} (h : r.Settles r') (h' : r'.Settles r'') :
    r.Settles r'' := by
  intro m
  rcases h m with hlack | hsame
  · exact .inl hlack
  · rw [hsame]
    exact h' m

theorem Settles.exhausted (r : Run α) : Settles Run.exhausted r := fun _ => .inl rfl

theorem Settles.bind {r r' : Run α} {f f' : α → Run β} (h : r.Settles r')
    (hf : ∀ a, (f a).Settles (f' a)) : (r >>= f).Settles (r' >>= f') := by
  intro m
  rw [bind_apply, bind_apply]
  rcases h m with hlack | hsame
  · exact .inl (by rw [hlack])
  · rw [← hsame]
    cases r m with
    | value a m' => exact hf a m'
    | failure e m' => exact .inr rfl
    | exhausted => exact .inl rfl

/-- The same run, gone on with in another way. -/
theorem Settles.andThen (r : Run α) {f f' : α → Run β} (hf : ∀ a, (f a).Settles (f' a)) :
    (r >>= f).Settles (r >>= f') :=
  (Settles.refl r).bind hf

/-- A run that ends, ends as the one that it settles. -/
theorem Settles.eq_of_ends {r r' : Run α} (h : r.Settles r') {m : Machine}
    (hends : r m ≠ .exhausted) : r m = r' m :=
  (h m).resolve_left hends

end Run

/-- An evaluator ends as another one does, if it ends at all. -/
def Evaluator.Settles (self self' : Evaluator) : Prop :=
  ∀ stack n, (self stack n).Settles (self' stack n)

variable {self self' : Evaluator} {stack : CallStack}

theorem Closure.enter_settles (h : self.Settles self') (c : Closure) (args : List Value) :
    (c.enter self stack args).Settles (c.enter self' stack args) := by
  unfold enter
  refine .andThen _ fun _ => ?_
  split
  · exact .refl _
  · exact .andThen _ fun id => (h _ _).bind fun flow => .refl _

theorem Plan.run_settles {α : Type} (h : self.Settles self') (p : Plan α) :
    (p.run self stack).Settles (p.run self' stack) := by
  induction p with
  | done a => exact .refl _
  | own r next ih => exact .andThen _ ih
  | settle held next ih => exact .andThen _ fun _ => ih
  | part held n next ih => exact (h (stack.hold held) n).bind ih
  | call held c args next ih => exact (c.enter_settles h args).bind ih

/-! ### Turns of loops -/

namespace Loop

theorem whileTurns_settles (self : Evaluator) (stack : CallStack) (guard body : Node)
    (turns : Nat) :
    (whileTurns self stack guard body turns).Settles
      (whileTurns self stack guard body (turns + 1)) := by
  induction turns with
  | zero => exact .exhausted _
  | succ turns ih =>
    refine .andThen _ fun b => ?_
    cases b with
    | false => exact .refl _
    | true =>
      refine .andThen _ fun flow => ?_
      cases left? flow with
      | some f => exact .refl _
      | none => exact ih

theorem doTurns_settles (self : Evaluator) (stack : CallStack) (guard body : Node) (turns : Nat) :
    (doTurns self stack guard body turns).Settles (doTurns self stack guard body (turns + 1)) := by
  induction turns with
  | zero => exact .exhausted _
  | succ turns ih =>
    refine .andThen _ fun flow => ?_
    cases left? flow with
    | some f => exact .refl _
    | none =>
      refine .andThen _ fun b => ?_
      cases b with
      | false => exact .refl _
      | true => exact ih

theorem forTurns_settles (self : Evaluator) (stack : CallStack) (counter : String)
    (limit step body : Node) (turns : Nat) :
    (forTurns self stack counter limit step body turns).Settles
      (forTurns self stack counter limit step body (turns + 1)) := by
  induction turns with
  | zero => exact .exhausted _
  | succ turns ih =>
    refine .andThen _ fun current => .andThen _ fun bound => .andThen _ fun increment =>
      .andThen _ fun beyond => ?_
    cases beyond with
    | true => exact .refl _
    | false =>
      refine .andThen _ fun flow => ?_
      cases left? flow with
      | some f => exact .refl _
      | none => exact .andThen _ fun _ => ih

end Loop

/-- One more turn for the loops of a rule. -/
theorem Node.evaluate_settles (self : Evaluator) (turns : Nat) (stack : CallStack) (n : Node) :
    (n.evaluate self turns stack).Settles (n.evaluate self (turns + 1) stack) := by
  unfold evaluate
  cases n.kind with
  | control c =>
    cases c with
    | whileLoop =>
      exact .andThen _ fun guard => .andThen _ fun body =>
        Loop.whileTurns_settles self stack guard body turns
    | doLoop =>
      exact .andThen _ fun guard => .andThen _ fun body =>
        Loop.doTurns_settles self stack guard body turns
    | forLoop counter =>
      exact .andThen _ fun start => .andThen _ fun limit => .andThen _ fun step =>
        .andThen _ fun body =>
        .andThen _ fun v => .andThen _ fun _ =>
          Loop.forTurns_settles self stack counter limit step body turns
    | _ => exact .refl _
  | _ => exact .refl _

/-! ### Evaluation -/

theorem eval_settles_succ (fuel : Nat) : (eval fuel).Settles (eval (fuel + 1)) := by
  induction fuel with
  | zero => exact fun _ _ => .exhausted _
  | succ fuel ih =>
    intro stack n
    have hparts :
        (n.evaluate (eval fuel) fuel stack).Settles (n.evaluate (eval (fuel + 1)) fuel stack) := by
      rw [← (Planned.evaluate fuel n).runs, ← (Planned.evaluate fuel n).runs]
      exact Plan.run_settles ih _
    exact hparts.trans (n.evaluate_settles _ fuel stack)

/-- With more fuel, an evaluation that ended ends in the same way. -/
theorem eval_settles {fuel fuel' : Nat} (h : fuel ≤ fuel') : (eval fuel).Settles (eval fuel') := by
  induction h with
  | refl => exact fun _ _ => .refl _
  | step _ ih => exact fun stack n => (ih stack n).trans (eval_settles_succ _ stack n)

end LineBasic
