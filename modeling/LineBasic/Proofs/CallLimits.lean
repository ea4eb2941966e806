import LineBasic.Proofs.Fuel
import LineBasic.Proofs.SourceLines

/-!
# The limit of calls

The number of calls that are allowed inside each other shows in one way only: a call that would be
one too many fails. Nothing takes that failure back, so an evaluation that does not end with it ends
in the same way under every larger limit.

* `Run.unlimited` : a run, with the end at the limit taken for a lack of
  fuel; it goes through `bind`.
* `CallStack.Raised` : the same calls under way, and no fewer allowed.
* `Plan.run_unlimited`, `eval_unlimited` : one rule, and evaluation, under a raised limit.
* `call_limit_unobserved` : evaluation that does not reach its limit does not depend on it.
-/

namespace LineBasic

/-! ### Runs without the limit -/

/-- An end at the limit of calls counts as a lack of fuel. -/
def Outcome.unlimited {α : Type} : Outcome α → Outcome α
  | .failure (.recursionLimit _) _ => .exhausted
  | o => o

/-- The limit of calls was reached. -/
def Outcome.AtLimit {α : Type} (o : Outcome α) : Prop :=
  ∃ limit m, o = .failure (.recursionLimit limit) m

theorem Outcome.unlimited_of_not_atLimit {α : Type} {o : Outcome α} (h : ¬o.AtLimit) :
    o.unlimited = o := by
  unfold unlimited
  split
  · exact absurd ⟨_, _, rfl⟩ h
  · rfl

/-- A failure is either that of the limit, or stays as it is. -/
theorem Outcome.unlimited_failure {α : Type} (e : Error) (m : Machine) :
    (failure e m : Outcome α).unlimited = .exhausted ∨
    (failure e m : Outcome α).unlimited = .failure e m := by
  cases e with
  | recursionLimit limit => exact .inl rfl
  | _ => exact .inr rfl

namespace Run

variable {α β : Type}

/-- The run, with an end at the limit of calls taken for a lack of fuel. -/
def unlimited (r : Run α) : Run α := fun m => (r m).unlimited

theorem unlimited_bind (r : Run α) (f : α → Run β) :
    (r >>= f).unlimited = r.unlimited >>= fun a => (f a).unlimited := by
  funext m
  simp only [unlimited, bind_apply]
  cases r m with
  | value a m' => rfl
  | failure e m' => cases e <;> rfl
  | exhausted => rfl

/-- Where a run does not end at the limit, it ends as it does. -/
theorem unlimited_settles (r : Run α) : r.unlimited.Settles r := by
  intro m
  cases hr : r m with
  | value a m' => exact .inr (by rw [unlimited, hr]; rfl)
  | failure e m' =>
    rw [unlimited, hr]
    exact Outcome.unlimited_failure e m'
  | exhausted => exact .inl (by rw [unlimited, hr]; rfl)

/-- One run after another, the second under another limit. -/
theorem unlimited_andThen (r : Run α) {f f' : α → Run β}
    (hf : ∀ a, (f a).unlimited.Settles (f' a)) :
    (r >>= f).unlimited.Settles (r >>= f') := by
  rw [unlimited_bind]
  exact r.unlimited_settles.bind hf

end Run

/-! ### Evaluation under a larger limit -/

/-- The same calls are under way and the same values kept aside, and under the second call stack no
fewer calls are allowed. -/
structure CallStack.Raised (s t : CallStack) : Prop where
  frames : s.frames = t.frames
  held : s.held = t.held
  limit : s.limit ≤ t.limit

namespace CallStack.Raised

variable {s t : CallStack}

theorem chain (h : s.Raised t) : s.chain = t.chain := by
  rw [CallStack.chain, CallStack.chain, h.frames]

theorem push (h : s.Raised t) (c : Chain) : (s.push c).Raised (t.push c) :=
  ⟨congrArg (c :: ·) h.frames, h.held, h.limit⟩

theorem hold (h : s.Raised t) (vs : List Value) : (s.hold vs).Raised (t.hold vs) :=
  ⟨h.frames, congrArg (vs ++ ·) h.held, h.limit⟩

theorem roots (h : s.Raised t) : s.roots = t.roots := by
  rw [CallStack.roots, CallStack.roots, h.frames, h.held]

/-- Where there is room for a call, there is with a larger limit. -/
theorem isFull (h : s.Raised t) (hs : s.isFull = false) : t.isFull = false := by
  have hlimit := h.limit
  simp only [CallStack.isFull, decide_eq_false_iff_not, h.frames] at hs ⊢
  omega

end CallStack.Raised

/-- An evaluator that does not end at the limit ends as another one does with more room. -/
def Evaluator.Outgrows (self self' : Evaluator) : Prop :=
  ∀ s t, s.Raised t → ∀ n, (self s n).unlimited.Settles (self' t n)

variable {self self' : Evaluator} {s t : CallStack}

theorem Closure.enter_unlimited (h : self.Outgrows self') (raised : s.Raised t) (c : Closure)
    (args : List Value) : (c.enter self s args).unlimited.Settles (c.enter self' t args) := by
  unfold enter
  refine Run.unlimited_andThen _ fun _ => ?_
  by_cases hs : s.isFull = true
  · -- the call fails at the limit, which counts as a lack of fuel
    rw [if_pos hs]
    exact fun m => .inl rfl
  · have ht : ¬t.isFull = true := by simp [raised.isFull (by simpa using hs)]
    rw [if_neg hs, if_neg ht]
    refine Run.unlimited_andThen _ fun id => ?_
    rw [Run.unlimited_bind]
    exact (h _ _ (raised.push _) c.body).bind fun flow => Run.unlimited_settles _

theorem Plan.run_unlimited {α : Type} (h : self.Outgrows self') (raised : s.Raised t) (p : Plan α) :
    (p.run self s).unlimited.Settles (p.run self' t) := by
  induction p with
  | done a => exact Run.unlimited_settles _
  | own r next ih =>
    rw [run, run, raised.chain]
    exact Run.unlimited_andThen _ ih
  | settle held next ih =>
    rw [run, run, Run.settle, Run.settle, (raised.hold held).roots]
    exact Run.unlimited_andThen _ fun _ => ih
  | part held n next ih =>
    rw [run, run, Run.unlimited_bind]
    exact (h _ _ (raised.hold held) n).bind ih
  | call held c args next ih =>
    rw [run, run, Run.unlimited_bind]
    exact (c.enter_unlimited h (raised.hold held) args).bind ih

theorem eval_unlimited (fuel : Nat) : (eval fuel).Outgrows (eval fuel) := by
  induction fuel with
  | zero => exact fun _ _ _ _ _ => .inl rfl
  | succ fuel ih =>
    intro s t raised n
    rw [eval_succ, eval_succ, ← (Planned.evaluate fuel n).runs, ← (Planned.evaluate fuel n).runs]
    exact Plan.run_unlimited ih raised _

/-- An evaluation that ends, and not at the limit of calls, ends in the same way under every larger
limit: with the same value or error, and on the same machine, that is, with the same output, the
same rest of the input and the same bindings and sequences. -/
theorem call_limit_unobserved {d d' : Nat} (h : d ≤ d') (frames : List Chain) (held : List Value)
    (n : Node) (m : Machine) {fuel : Nat} (ends : eval fuel ⟨d, frames, held⟩ n m ≠ .exhausted)
    (free : ¬(eval fuel ⟨d, frames, held⟩ n m).AtLimit) :
    ∀ fuel', fuel ≤ fuel' →
    eval fuel' ⟨d', frames, held⟩ n m = eval fuel ⟨d, frames, held⟩ n m := by
  intro fuel' hfuel
  have hraised : CallStack.Raised ⟨d, frames, held⟩ ⟨d', frames, held⟩ :=
    ⟨rfl, rfl, h⟩
  have hsame : (eval fuel ⟨d, frames, held⟩ n).unlimited m = eval fuel ⟨d, frames, held⟩ n m :=
    Outcome.unlimited_of_not_atLimit free
  have hends : (eval fuel ⟨d, frames, held⟩ n).unlimited m ≠ .exhausted := hsame ▸ ends
  have hsettles :
      (eval fuel ⟨d, frames, held⟩ n).unlimited.Settles (eval fuel' ⟨d', frames, held⟩ n) :=
    (eval_unlimited fuel _ _ hraised n).trans (eval_settles hfuel _ n)
  rw [← hsettles.eq_of_ends hends, hsame]

/-- A function that calls itself twice and then reads a line, which is printed. With three
calls allowed inside each other it ends, and so it does with any number from there on; with two
it ends at the limit. -/
theorem call_limit_unobserved_recursive :
    let source :=
      "FUNCTION F(N)\nIF N THEN\nRETURN F(N - 1)\nEND IF\nRETURN INPUT()\nEND FUNCTION\nPRINT F(2)"
    let m : Machine := .fresh .still .empty (.ofOctets [104, 105, 10, 111])
    ∃ (tree : Node) (f : Flow) (m' : Machine), Reader.program? [] [source] = some tree ∧
      (eval 16 (.bottom 2) tree m).AtLimit ∧ m'.output = "hi\n" ∧ m'.scopes.size = 4 ∧
      ∀ d' fuel', 3 ≤ d' → 16 ≤ fuel' → eval fuel' (.bottom d') tree m = .value f m' := by
  intro source m
  have hrun : (Reader.program? [] [source]).any (fun tree =>
      (match eval 16 (.bottom 2) tree m with
        | .failure (.recursionLimit _) _ => true
        | _ => false) &&
      match eval 16 (.bottom 3) tree m with
        | .value _ m' => m'.output = "hi\n" ∧ m'.scopes.size = 4
        | _ => false) = true := by
    decide +kernel
  obtain ⟨tree, read, hrun⟩ := (Option.any_eq_true ..).1 hrun
  obtain ⟨htwo, hthree⟩ := Bool.and_eq_true_iff.1 hrun
  have hlimit : (eval 16 (.bottom 2) tree m).AtLimit := by
    split at htwo
    · next limit m' h => exact ⟨limit, m', h⟩
    · cases htwo
  split at hthree
  · next f m' h =>
    obtain ⟨houtput, hsize⟩ := of_decide_eq_true hthree
    refine ⟨tree, f, m', read, hlimit, houtput, hsize, fun d' fuel' hd hfuel => ?_⟩
    have hends : eval 16 (.bottom 3) tree m ≠ .exhausted := by simp [h]
    have hfree : ¬(eval 16 (.bottom 3) tree m).AtLimit := by simp [h, Outcome.AtLimit]
    exact (call_limit_unobserved hd _ [] tree m hends hfree fuel' hfuel).trans h
  · cases hthree

end LineBasic
