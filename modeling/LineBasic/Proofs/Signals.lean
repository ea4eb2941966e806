import LineBasic.Proofs.Attention

/-!
# What constructs do with signals

A part of a node ends with a signal. The lemmas say how the node then ends, for any evaluator, by
induction on the statements of a block, the branches of a chain or the turns of a loop.

* `Node.isLoop`, `Node.passesOn` : the nodes that take signals, and those that pass them on.
* `Node.operands` : the parts of a node that are expressions; `Node.Fits.part` sorts all parts.
* `Node.Fits.passes` : blocks, branches and chains end with the same signal on the same machine.
* `Node.Fits.leaves` : an exit or a return ends a loop.
* `Node.Fits.goes_on` : a skip is to a loop what the normal end of its body is.
-/

namespace LineBasic

/-! ### Constructs that pass signals on, and loops that take them -/

section Constructs

variable {self : Evaluator} {q : Moment} {stack : CallStack} {s : Signal} {m m' : Machine}

theorem Statements.block_signal {ns : List Node}
    (hq : self q.stack q.node q.machine = .value (.signal s) m')
    (h : Awaits self q (fun ev => block ev stack ns) m) :
    block self stack ns m = .value (.signal s) m' := by
  induction ns generalizing m with
  | nil => exact (not_awaits_const h).elim
  | cons n ns ih =>
    unfold block at h ⊢
    rw [Run.bind_apply]
    rcases Awaits.bind (attends_ask stack n) h with h | ⟨f, m₁, hn, h⟩
    · obtain ⟨rfl, rfl, rfl⟩ := awaits_ask h
      rw [hq]
      rfl
    · rw [hn]
      cases f with
      | signal _ => exact (not_awaits_const h).elim
      | value _ => exact ih h

theorem Branch.run_signal {fallback : Bool} {guard : Node} {ss : List Node}
    (hq : self q.stack q.node q.machine = .value (.signal s) m') (hguard : guard ≠ q.node)
    (h : Awaits self q (fun ev => run ev stack (.construct (.branch fallback) [guard] ss)) m) :
    run self stack (.construct (.branch fallback) [guard] ss) m = .value (.left s) m' := by
  simp only [run_construct] at h ⊢
  rw [Run.bind_apply]
  rcases Awaits.bind (attends_truth stack guard) h with h | ⟨b, m₁, hb, h⟩
  · exact absurd (awaits_truth h) hguard
  · rw [hb]
    cases b with
    | false => exact (not_awaits_const h).elim
    | true =>
      rcases Awaits.bind (attends_ask stack (.block ss)) h with h | ⟨f, m₂, hf, h⟩
      · obtain ⟨rfl, hnode, rfl⟩ := awaits_ask h
        simp only [if_true, Run.bind_apply, hnode, hq]
        rfl
      · cases f <;> exact (not_awaits_const h).elim

theorem Branch.alone_signal {fallback : Bool} {guard : Node} {ss : List Node}
    (hq : self q.stack q.node q.machine = .value (.signal s) m') (hguard : guard ≠ q.node)
    (h : Awaits self q (fun ev => alone ev stack (.construct (.branch fallback) [guard] ss)) m) :
    alone self stack (.construct (.branch fallback) [guard] ss) m = .value (.signal s) m' := by
  unfold alone at h ⊢
  rcases Awaits.bind (attends_run _) h with h | ⟨b, m₁, hb, h⟩
  · rw [Run.bind_apply, run_signal hq hguard h]
    rfl
  · cases b <;> exact (not_awaits_const h).elim

theorem Branch.chain_signal {ns : List Node}
    (hq : self q.stack q.node q.machine = .value (.signal s) m')
    (hns : ∀ n ∈ ns, ∃ fallback guard ss, n = .construct (.branch fallback) [guard] ss ∧
      guard ≠ q.node)
    (h : Awaits self q (fun ev => chain ev stack ns) m) :
    chain self stack ns m = .value (.signal s) m' := by
  induction ns generalizing m with
  | nil => exact (not_awaits_const h).elim
  | cons n ns ih =>
    obtain ⟨fallback, guard, ss, rfl, hguard⟩ := hns n (by simp)
    unfold chain at h ⊢
    rw [Run.bind_apply]
    rcases Awaits.bind (attends_run _) h with h | ⟨b, m₁, hb, h⟩
    · rw [run_signal hq hguard h]
      rfl
    · rw [hb]
      cases b with
      | skipped => exact ih (fun k hk => hns k (by simp [hk])) h
      | taken => exact (not_awaits_const h).elim
      | left _ => exact (not_awaits_const h).elim

namespace Loop

variable {f : Flow} {counter : String} {guard limit step body : Node} {turns : Nat}

/-- A signal that leaves a loop ends it. -/
theorem whileTurns_left (hq : self q.stack q.node q.machine = .value (.signal s) m')
    (hleft : left? (.signal s) = some f) (hguard : guard ≠ q.node)
    (h : Awaits self q (fun ev => whileTurns ev stack guard body turns) m) :
    whileTurns self stack guard body turns m = .value f m' := by
  induction turns generalizing m with
  | zero => exact (not_awaits_const h).elim
  | succ turns ih =>
    unfold whileTurns at h ⊢
    rw [Run.bind_apply]
    rcases Awaits.bind (attends_truth stack guard) h with h | ⟨b, m₁, hb, h⟩
    · exact absurd (awaits_truth h) hguard
    · rw [hb]
      cases b with
      | false => exact (not_awaits_const h).elim
      | true =>
        simp only [if_true, Run.bind_apply]
        -- the body that ends with the signal is that of this turn or of a later one
        rcases Awaits.bind (attends_ask stack body) h with h | ⟨g, m₂, hg, h⟩
        · obtain ⟨rfl, rfl, rfl⟩ := awaits_ask h
          simp only [hq, hleft]
          rfl
        · simp only [hg]
          cases hend : left? g with
          | some _ =>
            simp only [hend] at h
            exact (not_awaits_const h).elim
          | none =>
            simp only [hend] at h
            exact ih h

theorem doTurns_left (hq : self q.stack q.node q.machine = .value (.signal s) m')
    (hleft : left? (.signal s) = some f) (hguard : guard ≠ q.node)
    (h : Awaits self q (fun ev => doTurns ev stack guard body turns) m) :
    doTurns self stack guard body turns m = .value f m' := by
  induction turns generalizing m with
  | zero => exact (not_awaits_const h).elim
  | succ turns ih =>
    unfold doTurns at h ⊢
    rw [Run.bind_apply]
    rcases Awaits.bind (attends_ask stack body) h with h | ⟨g, m₁, hg, h⟩
    · obtain ⟨rfl, rfl, rfl⟩ := awaits_ask h
      simp only [hq, hleft]
      rfl
    · simp only [hg]
      cases hend : left? g with
      | some _ =>
        simp only [hend] at h
        exact (not_awaits_const h).elim
      | none =>
        simp only [hend, Run.bind_apply] at h ⊢
        rcases Awaits.bind (attends_truth stack guard) h with h | ⟨b, m₂, hb, h⟩
        · exact absurd (awaits_truth h) hguard
        · simp only [hb]
          cases b with
          | false => exact (not_awaits_const h).elim
          | true => exact ih h

theorem forTurns_left (hq : self q.stack q.node q.machine = .value (.signal s) m')
    (hleft : left? (.signal s) = some f) (hlimit : limit ≠ q.node) (hstep : step ≠ q.node)
    (h : Awaits self q (fun ev => forTurns ev stack counter limit step body turns) m) :
    forTurns self stack counter limit step body turns m = .value f m' := by
  induction turns generalizing m with
  | zero => exact (not_awaits_const h).elim
  | succ turns ih =>
    unfold forTurns at h ⊢
    rcases Awaits.bind (attends_const _) h with h | ⟨current, m₁, hcurrent, h⟩
    · exact (not_awaits_const h).elim
    rcases Awaits.bind (attends_value _ limit) h with h | ⟨bound, m₂, hbound, h⟩
    · exact absurd (awaits_value h) hlimit
    rcases Awaits.bind (attends_value _ step) h with h | ⟨increment, m₃, hincrement, h⟩
    · exact absurd (awaits_value h) hstep
    rcases Awaits.bind (attends_const _) h with h | ⟨beyond, m₄, hbeyond, h⟩
    · exact (not_awaits_const h).elim
    simp only [Run.bind_apply, hcurrent, hbound, hincrement, hbeyond]
    cases beyond with
    | true => exact (not_awaits_const h).elim
    | false =>
      simp only [Bool.false_eq_true, if_false, Run.bind_apply]
      rcases Awaits.bind (attends_ask stack body) h with h | ⟨g, m₅, hg, h⟩
      · obtain ⟨rfl, rfl, rfl⟩ := awaits_ask h
        simp only [hq, hleft]
        rfl
      · simp only [hg]
        cases hend : left? g with
        | some _ =>
          simp only [hend] at h
          exact (not_awaits_const h).elim
        | none =>
          simp only [hend] at h ⊢
          rcases Awaits.bind (attends_const _) h with h | ⟨_, m₆, hadvance, h⟩
          · exact (not_awaits_const h).elim
          · simp only [Run.bind_apply, hadvance]
            exact ih h

/-- What follows a body is the same after its normal end and after a skip. -/
theorem bind_skip {β : Type} {k k' : Flow → Run β}
    (hq : self q.stack q.node q.machine = .value (.signal .continueLoop) m')
    (hk : ∀ f m, k' f m = k f m) (hdone : k .done = k (.signal .continueLoop)) :
    (self.answering q (.value .done m') stack body >>= k') m = (self stack body >>= k) m := by
  rw [Run.bind_apply, Run.bind_apply]
  by_cases heq : stack = q.stack ∧ body = q.node ∧ m = q.machine
  · have hanswer : self.answering q (.value .done m') stack body m = .value .done m' := if_pos heq
    obtain ⟨rfl, rfl, rfl⟩ := heq
    simp only [hanswer, hq, hk, hdone]
  · have hanswer : self.answering q (.value .done m') stack body m = self stack body m :=
      if_neg heq
    rw [hanswer]
    cases self stack body m with
    | value f m₁ => exact hk f m₁
    | failure e m₁ => rfl
    | exhausted => rfl

/-- After a skip a loop goes on as after the normal end of its body. -/
theorem whileTurns_skip (hq : self q.stack q.node q.machine = .value (.signal .continueLoop) m')
    (hguard : guard ≠ q.node) (turns : Nat) (m : Machine) :
    whileTurns (self.answering q (.value .done m')) stack guard body turns m =
      whileTurns self stack guard body turns m := by
  induction turns generalizing m with
  | zero => rfl
  | succ turns ih =>
    unfold whileTurns
    rw [truth_answering hguard]
    refine Run.bind_congr (fun b m₁ => ?_) m
    cases b with
    | false => rfl
    | true =>
      refine bind_skip hq (fun f m₂ => ?_) rfl
      cases left? f with
      | some g => rfl
      | none => exact ih m₂

theorem doTurns_skip (hq : self q.stack q.node q.machine = .value (.signal .continueLoop) m')
    (hguard : guard ≠ q.node) (turns : Nat) (m : Machine) :
    doTurns (self.answering q (.value .done m')) stack guard body turns m =
      doTurns self stack guard body turns m := by
  induction turns generalizing m with
  | zero => rfl
  | succ turns ih =>
    unfold doTurns
    refine bind_skip hq (fun f m₁ => ?_) rfl
    cases left? f with
    | some g => rfl
    | none =>
      simp only [truth_answering hguard]
      refine Run.bind_congr (fun b m₂ => ?_) m₁
      cases b with
      | false => rfl
      | true => exact ih m₂

theorem forTurns_skip (hq : self q.stack q.node q.machine = .value (.signal .continueLoop) m')
    (hlimit : limit ≠ q.node) (hstep : step ≠ q.node) (turns : Nat) (m : Machine) :
    forTurns (self.answering q (.value .done m')) stack counter limit step body turns m =
      forTurns self stack counter limit step body turns m := by
  induction turns generalizing m with
  | zero => rfl
  | succ turns ih =>
    unfold forTurns
    simp only [value_answering hlimit, value_answering hstep]
    refine Run.bind_congr (fun current m₁ => ?_) m
    refine Run.bind_congr (fun bound m₂ => ?_) m₁
    refine Run.bind_congr (fun increment m₃ => ?_) m₂
    refine Run.bind_congr (fun beyond m₄ => ?_) m₃
    cases beyond with
    | true => rfl
    | false =>
      refine bind_skip hq (fun f m₅ => ?_) rfl
      cases left? f with
      | some g => rfl
      | none => exact Run.bind_congr (fun _ m₆ => ih m₆) m₅

end Loop

end Constructs

/-! ### Kinds of nodes -/

namespace Node

/-- The loops. -/
def isLoop (n : Node) : Bool :=
  match n.kind with
  | .control .whileLoop => true
  | .control .doLoop => true
  | .control (.forLoop _) => true
  | _ => false

/-- The constructs that end with the signal of a part. -/
def passesOn (n : Node) : Bool :=
  match n.kind with
  | .control .block => true
  | .control (.branch _) => true
  | .control .chain => true
  | _ => false

/-- The parts of a node that are expressions. -/
def operands (n : Node) : List Node :=
  match n.kind with
  | .control .chain => n.children.flatMap fun b => b.children.take 1
  | .control (.branch _) => n.children.take 1
  | .control .whileLoop => n.children.take 1
  | .control .doLoop => n.children.take 1
  | .control (.forLoop _) => n.children.take 3
  | .control .returned => n.children
  | .control _ => []
  | _ => n.children

namespace Fits

variable {place : Place} {n c : Node}

theorem operand (fit : n.Fits place) (hc : c ∈ n.operands) : c.Expression := by
  cases fit with
  | expression he =>
    cases he with
    | literal v => cases hc
    | name word => cases hc
    | array elements => exact elements c hc
    | call word arguments => exact arguments c hc
    | operation takes operands => exact operands c hc
  | block statements => cases hc
  | branch guarded body =>
    rw [List.mem_singleton.1 hc]
    exact guarded
  | chain chained branches =>
    obtain ⟨b, hb, hguard⟩ := List.mem_flatMap.1 hc
    obtain ⟨fallback, guard, ss, rfl, guarded, -⟩ :=
      (branches b hb).of_branch (isChain_branch chained hb)
    rw [List.mem_singleton.1 hguard]
    exact guarded
  | whileLoop guarded body =>
    rw [List.mem_singleton.1 hc]
    exact guarded
  | doLoop guarded body =>
    rw [List.mem_singleton.1 hc]
    exact guarded
  | forLoop started limited stepped body =>
    have hmem : c ∈ [_, _, _] := hc
    simp only [List.mem_cons, List.not_mem_nil, or_false] at hmem
    rcases hmem with rfl | rfl | rfl
    · exact started
    · exact limited
    · exact stepped
  | @closure _ closureKind => cases closureKind <;> cases hc
  | jump j inLoop => cases j <;> cases hc
  | returned inCall valued => exact valued c (Option.mem_toList.1 hc)
  | inclusion what => cases hc
  | program statements => cases hc

/-- A part is an operand, or a statement in a place that its construct gives it. -/
theorem part (fit : n.Fits place) (hc : c ∈ n.parts) :
    c ∈ n.operands ∨ (n.passesOn = true ∧ c.Fits place) ∨
      (n.isLoop = true ∧ c.Fits place.loop) ∨ (n.kind = .control .program ∧ c.Fits .top) := by
  cases fit with
  | expression he =>
    rw [he.parts_eq] at hc
    left
    cases he <;> exact hc
  | block statements => exact .inr (.inl ⟨rfl, statements c hc⟩)
  | branch guarded body =>
    rcases List.mem_append.1 hc with hc | hc
    · exact .inl hc
    · rw [List.mem_singleton.1 hc]
      exact .inr (.inl ⟨rfl, body⟩)
  | chain chained branches =>
    obtain ⟨b, hb, hc⟩ := List.mem_flatMap.1 hc
    obtain ⟨fallback, guard, ss, rfl, -, body⟩ :=
      (branches b hb).of_branch (isChain_branch chained hb)
    rcases List.mem_append.1 hc with hc | hc
    · exact .inl (List.mem_flatMap.2 ⟨_, hb, hc⟩)
    · rw [List.mem_singleton.1 hc]
      exact .inr (.inl ⟨rfl, body⟩)
  | whileLoop guarded body =>
    rcases List.mem_append.1 hc with hc | hc
    · exact .inl hc
    · rw [List.mem_singleton.1 hc]
      exact .inr (.inr (.inl ⟨rfl, body⟩))
  | doLoop guarded body =>
    rcases List.mem_append.1 hc with hc | hc
    · exact .inl hc
    · rw [List.mem_singleton.1 hc]
      exact .inr (.inr (.inl ⟨rfl, body⟩))
  | forLoop started limited stepped body =>
    rcases List.mem_append.1 hc with hc | hc
    · exact .inl hc
    · rw [List.mem_singleton.1 hc]
      exact .inr (.inr (.inl ⟨rfl, body⟩))
  | @closure _ closureKind => cases closureKind <;> cases hc
  | jump j inLoop => cases j <;> cases hc
  | returned inCall valued => exact .inl hc
  | inclusion what => cases hc
  | program statements => exact .inr (.inr (.inr ⟨rfl, statements c hc⟩))

/-- A loop does not need another loop around it. -/
theorem of_loop (fit : n.Fits place) (looping : n.isLoop = true) :
    n.Fits { place with jumps := false } := by
  cases fit with
  | expression he => cases he <;> cases looping
  | whileLoop guarded body => exact .whileLoop guarded body
  | doLoop guarded body => exact .doLoop guarded body
  | forLoop started limited stepped body => exact .forLoop started limited stepped body
  | @closure _ closureKind => cases closureKind <;> cases looping
  | jump j inLoop => cases j <;> cases looping
  | _ => cases looping

theorem jumps {j : Jump} (fit : j.node.Fits place) : place.jumps = true := by
  generalize hn : j.node = n at fit
  cases fit with
  | expression he => cases j <;> cases he <;> cases hn
  | @closure _ closureKind => cases j <;> cases closureKind <;> cases hn
  | jump _ inLoop => exact inLoop
  | _ => cases j <;> cases hn

section Signals

variable {self : Evaluator} {q : Moment} {stack : CallStack} {s : Signal} {turns : Nat}
  {m m' : Machine}

/-- Blocks, branches and chains end with the signal of a part. -/
theorem passes (fit : n.Fits place) (passing : n.passesOn = true) (hop : q.node ∉ n.operands)
    (hq : self q.stack q.node q.machine = .value (.signal s) m')
    (h : Awaits self q (fun ev => n.evaluate ev turns stack) m) :
    n.evaluate self turns stack m = .value (.signal s) m' := by
  cases fit with
  | expression he => cases he <;> cases passing
  | block statements => exact Statements.block_signal hq h
  | branch guarded body =>
    refine Branch.alone_signal hq ?_ h
    exact fun heq => hop (heq ▸ List.mem_singleton_self _)
  | chain chained branches =>
    refine Branch.chain_signal hq (fun b hb => ?_) h
    obtain ⟨fallback, guard, ss, rfl, -⟩ := (branches b hb).of_branch (isChain_branch chained hb)
    refine ⟨fallback, guard, ss, rfl, fun heq => hop ?_⟩
    exact List.mem_flatMap.2 ⟨_, hb, heq ▸ List.mem_singleton_self _⟩
  | @closure _ closureKind => cases closureKind <;> cases passing
  | jump j inLoop => cases j <;> cases passing
  | _ => cases passing

/-- A signal that leaves a loop ends it. -/
theorem leaves {f : Flow} (fit : n.Fits place) (looping : n.isLoop = true)
    (hop : q.node ∉ n.operands) (hq : self q.stack q.node q.machine = .value (.signal s) m')
    (hleft : Loop.left? (.signal s) = some f)
    (h : Awaits self q (fun ev => n.evaluate ev turns stack) m) :
    n.evaluate self turns stack m = .value f m' := by
  cases fit with
  | expression he => cases he <;> cases looping
  | whileLoop guarded body =>
    simp only [evaluate_whileLoop] at h ⊢
    exact Loop.whileTurns_left hq hleft (fun heq => hop (heq ▸ List.mem_singleton_self _)) h
  | doLoop guarded body =>
    simp only [evaluate_doLoop] at h ⊢
    exact Loop.doTurns_left hq hleft (fun heq => hop (heq ▸ List.mem_singleton_self _)) h
  | @forLoop _ counter start limit step ss started limited stepped body =>
    have hne : ∀ c ∈ [start, limit, step], c ≠ q.node := fun c hc heq => hop (heq ▸ hc)
    simp only [evaluate_forLoop] at h ⊢
    rcases Awaits.bind (attends_value stack start) h with h | ⟨v, m₁, hv, h⟩
    · exact absurd (awaits_value h) (hne start (by simp))
    rcases Awaits.bind (attends_const _) h with h | ⟨_, m₂, hset, h⟩
    · exact (not_awaits_const h).elim
    simp only [Run.bind_apply, hv, hset]
    exact Loop.forTurns_left hq hleft (hne limit (by simp)) (hne step (by simp)) h
  | @closure _ closureKind => cases closureKind <;> cases looping
  | jump j inLoop => cases j <;> cases looping
  | _ => cases looping

/-- After a skip a loop goes on as after the normal end of its body. -/
theorem goes_on (fit : n.Fits place) (looping : n.isLoop = true) (hop : q.node ∉ n.operands)
    (hq : self q.stack q.node q.machine = .value (.signal .continueLoop) m') (m : Machine) :
    n.evaluate (self.answering q (.value .done m')) turns stack m =
      n.evaluate self turns stack m := by
  cases fit with
  | expression he => cases he <;> cases looping
  | whileLoop guarded body =>
    simp only [evaluate_whileLoop]
    exact Loop.whileTurns_skip hq (fun heq => hop (heq ▸ List.mem_singleton_self _)) turns m
  | doLoop guarded body =>
    simp only [evaluate_doLoop]
    exact Loop.doTurns_skip hq (fun heq => hop (heq ▸ List.mem_singleton_self _)) turns m
  | @forLoop _ counter start limit step ss started limited stepped body =>
    have hne : ∀ c ∈ [start, limit, step], c ≠ q.node := fun c hc heq => hop (heq ▸ hc)
    simp only [evaluate_forLoop, value_answering (hne start (by simp))]
    refine Run.bind_congr (fun v m₁ => ?_) m
    refine Run.bind_congr (fun _ m₂ => ?_) m₁
    exact Loop.forTurns_skip hq (hne limit (by simp)) (hne step (by simp)) turns m₂
  | @closure _ closureKind => cases closureKind <;> cases looping
  | jump j inLoop => cases j <;> cases looping
  | _ => cases looping

end Signals

end Fits
end Node
end LineBasic
