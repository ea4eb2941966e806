import Mathlib.Data.Finset.Range
import Mathlib.Order.Filter.AtTopBot.Basic
import Mathlib.Order.Filter.Finite
import LineBasic.Proofs.Assignments
import LineBasic.Proofs.Fuel
import LineBasic.Proofs.Integers
import LineBasic.Proofs.Lexical
import LineBasic.Proofs.Restored

/-!
# Counted loops

A counted loop looks its counter up before each turn, evaluates its bounds anew, and compares. After
the body it looks the counter up again, adds the step and binds the sum in the scope that owns the
counter. If the bounds are always the same integers and the body leaves the value of the counter as
it is, the number of turns is that of the places from the start to the limit, whatever scopes own
the counter and whatever else the body does.

* `Scopes.find?_assignShared` : the counter that was bound is found.
* `Evaluates` : evaluating a node ends, given enough fuel.
* `Loop.turnCount`, `Loop.lt_turnCount_iff` : the number of turns, and when there is one more.
* `Loop.Bounds`, `Loop.Looks` : one look at the bounds and the counter, and what follows from it.
* `Loop.Head` : the machines on which a loop decides on a turn, after a number of turns.
* `Loop.Track`, `Loop.Course` : the machines on the way of a loop, and an evaluator that goes along
  it. `Loop.Track.reach` : turn after turn; `Loop.Course.outcome` : how the loop ends.
* `Loop.Keeps.exists_track`, `Loop.eventually_course` : the way of a loop
  whose body keeps the counter.
* `Loop.Course.asks_iff` : the moments at which the body is evaluated.
* `counted_loop_turns` : the turns of counted loops in all runs.
-/

namespace LineBasic

/-! ### Counters -/

namespace Scopes

variable {s : Scopes} {c : Chain} {x : String} {v w : Value} {o : ScopeId}

theorem exists_owner_of_find? (h : s.find? c x = some w) : ∃ o, s.owner? c x = some o := by
  refine Option.ne_none_iff_exists'.1 fun hnone => ?_
  have hfree : s.find? c x = none := by
    refine List.findSome?_eq_none_iff.2 fun i hi => ?_
    simpa [binds] using List.find?_eq_none.1 hnone i hi
  rw [hfree] at h
  cases h

theorem find?_assignShared_of_owner (h : s.owner? c x = some o) :
    (s.assignShared c x v).find? c x = some v := by
  rw [assignShared, h, Option.getD_some, find?_define_of_owner h (binds_of_owner h), if_pos rfl]

theorem find?_assignShared_of_bound (h : s.find? c x = some w) :
    (s.assignShared c x v).find? c x = some v := by
  obtain ⟨o, howner⟩ := exists_owner_of_find? h
  exact find?_assignShared_of_owner howner

theorem find?_assignShared (inside : c ≠ []) (stored : innermost c < s.size) :
    (s.assignShared c x v).find? c x = some v := by
  cases howner : s.owner? c x with
  | none =>
    rw [assignShared, howner, Option.getD_none]
    exact find?_define_innermost inside stored
  | some o => exact find?_assignShared_of_owner howner

end Scopes

/-! ### Evaluation with enough fuel -/

/-- Given enough fuel, evaluating a node ends with `f` on the machine `m'`. -/
def Evaluates (stack : CallStack) (n : Node) (m : Machine) (f : Flow) (m' : Machine) : Prop :=
  ∃ fuel, eval fuel stack n m = .value f m'

section Evaluates

variable {stack : CallStack} {n : Node} {m m₁ m₂ : Machine} {f f₁ f₂ : Flow} {fuel fuel' : Nat}

theorem eval_of_le (h : eval fuel stack n m = .value f m₁) (hle : fuel ≤ fuel') :
    eval fuel' stack n m = .value f m₁ := by
  rw [← h]
  exact ((eval_settles hle stack n).eq_of_ends (by rw [h]; nofun)).symm

theorem Evaluates.unique (h₁ : Evaluates stack n m f₁ m₁) (h₂ : Evaluates stack n m f₂ m₂) :
    f₁ = f₂ ∧ m₁ = m₂ := by
  obtain ⟨fuel₁, h₁⟩ := h₁
  obtain ⟨fuel₂, h₂⟩ := h₂
  have heq := eval_of_le h₁ (Nat.le_max_left fuel₁ fuel₂)
  rw [eval_of_le h₂ (Nat.le_max_right fuel₁ fuel₂)] at heq
  cases heq
  exact ⟨rfl, rfl⟩

theorem Evaluates.eventually (h : Evaluates stack n m f m₁) :
    ∀ᶠ fuel in Filter.atTop, eval fuel stack n m = .value f m₁ := by
  obtain ⟨fuel, h⟩ := h
  exact Filter.eventually_atTop.2 ⟨fuel, fun _ hle => eval_of_le h hle⟩

theorem Evaluates.value_eventually {v : Value} (h : Evaluates stack n m (.value v) m₁) :
    ∀ᶠ fuel in Filter.atTop, (eval fuel).value stack n m = .value v m₁ :=
  h.eventually.mono fun fuel hfuel => by rw [Evaluator.value, Run.bind_of_value hfuel]; rfl

/-- Integers that are kept aside meanwhile do not matter, as they refer to nothing. -/
theorem Evaluates.hold_integers (h : Evaluates stack n m f m₁) (xs : List Int64) :
    Evaluates (stack.hold (xs.map .int)) n m f m₁ := by
  obtain ⟨fuel, h⟩ := h
  have hsame : (stack.hold (xs.map .int)).Same stack :=
    CallStack.same_hold (List.forall_mem_map.2 fun _ _ => rfl)
  exact ⟨fuel, (eval_same fuel hsame n m).trans h⟩

/-- A block has no value. -/
theorem eval_block_ne {ss : List Node} {v : Value} (hv : v ≠ .nothing) :
    eval fuel stack (.block ss) m ≠ .value (.value v) m₁ := by
  cases fuel with
  | zero =>
    intro h
    cases h
  | succ fuel =>
    show Statements.block (eval fuel) stack ss m ≠ _
    induction ss generalizing m with
    | nil =>
      intro h
      cases h
      exact hv rfl
    | cons n ns ih =>
      rw [Statements.block, Run.bind_apply]
      cases eval fuel stack n m with
      | value f m' =>
        cases f with
        | value w => exact ih
        | signal s =>
          intro h
          cases h
      | failure e m' =>
        intro h
        cases h
      | exhausted =>
        intro h
        cases h

theorem Evaluates.ne_block {x : Int64} (h : Evaluates stack n m (.value (.int x)) m₁)
    (ss : List Node) :
    n ≠ .block ss := by
  rintro rfl
  obtain ⟨fuel, h⟩ := h
  exact eval_block_ne (by nofun) h

end Evaluates

/-! ### The number of turns -/

namespace Loop

/-- The number of integers from `a` to `b` in steps of `s`. -/
def turnCount (a b s : Int64) : Nat := (⌊((b.toInt - a.toInt : Int) : ℚ) / s.toInt⌋ + 1).toNat

/-- The counter after `k` turns. -/
def counterAt (a s : Int64) (k : Nat) : Int64 := Int64.ofInt (a.toInt + k * s.toInt)

/-- The counter after `k` turns fits. -/
def Reached (a s : Int64) (k : Nat) : Prop := Integer.Fits (a.toInt + k * s.toInt)

section Counters

variable {a b s : Int64} {k : Nat}

/-- There is one more turn after `k` of them just if the next integer is not beyond the limit. -/
theorem lt_turnCount_iff (hs : s ≠ 0) : k < turnCount a b s ↔
    if 0 ≤ s.toInt then a.toInt + k * s.toInt ≤ b.toInt else b.toInt ≤ a.toInt + k * s.toInt := by
  have hfloor : k < turnCount a b s ↔ (k : ℚ) ≤ ((b.toInt - a.toInt : Int) : ℚ) / s.toInt := by
    rw [turnCount, Int.lt_toNat, Int.lt_add_one_iff, Int.le_floor, Int.cast_natCast]
  have hne : s.toInt ≠ 0 := Integer.toInt_ne_zero_iff.2 hs
  rw [hfloor]
  split
  · next hpos =>
    rw [le_div_iff₀ (by exact_mod_cast lt_of_le_of_ne hpos hne.symm)]
    have hcast : (k : ℚ) * s.toInt ≤ ((b.toInt - a.toInt : Int) : ℚ) ↔
        k * s.toInt ≤ b.toInt - a.toInt := by
      exact_mod_cast Iff.rfl
    rw [hcast]
    omega
  · next hneg =>
    rw [le_div_iff_of_neg (by exact_mod_cast not_le.1 hneg)]
    have hcast : ((b.toInt - a.toInt : Int) : ℚ) ≤ (k : ℚ) * s.toInt ↔
        b.toInt - a.toInt ≤ k * s.toInt := by
      exact_mod_cast Iff.rfl
    rw [hcast]
    omega

/-- The counters of the turns lie between the start and the limit. -/
theorem reached_of_lt (hs : s ≠ 0) (h : k < turnCount a b s) : Reached a s k := by
  rw [lt_turnCount_iff hs] at h
  have ha := Integer.fits_toInt a
  have hb := Integer.fits_toInt b
  unfold Reached
  unfold Integer.Fits at *
  split at h
  · next hpos =>
    have hstep : 0 ≤ k * s.toInt := Int.mul_nonneg (Int.natCast_nonneg k) hpos
    omega
  · next hneg =>
    have hstep : k * s.toInt ≤ 0 :=
      Int.mul_nonpos_of_nonneg_of_nonpos (Int.natCast_nonneg k) (not_le.1 hneg).le
    omega

theorem reached_zero (a s : Int64) : Reached a s 0 := by
  simpa [Reached] using Integer.fits_toInt a

theorem counterAt_zero (a s : Int64) : counterAt a s 0 = a := by
  simp [counterAt]

theorem Reached.toInt_counterAt (h : Reached a s k) :
    (counterAt a s k).toInt = a.toInt + k * s.toInt :=
  h.toInt_ofInt

theorem Reached.add?_counterAt (h : Reached a s k) :
    Integer.add? (counterAt a s k) s = Integer.ofInt? (a.toInt + (k + 1 : Nat) * s.toInt) := by
  have hsum : a.toInt + k * s.toInt + s.toInt = a.toInt + (k + 1 : Nat) * s.toInt := by
    push_cast
    ring
  rw [Integer.add?, h.toInt_counterAt, hsum]

/-- The counter is beyond the limit when all turns have been made. -/
theorem Reached.passed_counterAt (h : Reached a s k) (hs : s ≠ 0) :
    passed (.int (counterAt a s k)) (.int b) (.int s) = .ok (decide (turnCount a b s ≤ k)) := by
  have hcount := not_congr (lt_turnCount_iff (a := a) (b := b) (k := k) hs)
  rw [not_lt, ← h.toInt_counterAt] at hcount
  have hsign : 0 ≤ s ↔ 0 ≤ s.toInt := Int64.le_iff_toInt_le
  show Except.ok (if 0 ≤ s then decide (b < counterAt a s k) else decide (counterAt a s k < b)) = _
  congr 1
  simp only [hsign, Int64.lt_iff_toInt_lt]
  split at hcount
  · next hpos => rw [if_pos hpos, decide_eq_decide, hcount, not_le]
  · next hneg => rw [if_neg hneg, decide_eq_decide, hcount, not_le]

theorem passed_of_lt (hs : s ≠ 0) (h : k < turnCount a b s) :
    passed (.int (counterAt a s k)) (.int b) (.int s) = .ok false := by
  rw [(reached_of_lt hs h).passed_counterAt hs, decide_eq_false (not_le.2 h)]

end Counters

/-! ### One turn -/

/-- The machine with the counter bound to an integer, in the scope that owns it. -/
def bindCounter (stack : CallStack) (counter : String) (x : Int64) (m : Machine) : Machine :=
  { m with scopes := m.scopes.assignShared stack.chain counter (.int x) }

section Turns

variable {self : Evaluator} {stack : CallStack} {counter : String} {final step body : Node}
  {b s x : Int64} {m m₁ m₂ : Machine} {f : Flow}

theorem advance_eq (h : m.scopes.find? stack.chain counter = some (.int x)) :
    advance stack counter (.int s) m =
      match Integer.add? x s with
      | some y => .value () (bindCounter stack counter y m)
      | none => .failure (.run .integerOverflow) m := by
  have hsum : Run.onHeap (fun h => Value.binary h .plus (.int x) (.int s)) m =
      Run.ofExcept (Value.checked (Integer.add? x s)) m := rfl
  rw [advance, Run.bind_of_value (Run.lookup_of_find? h), Run.bind_apply, hsum]
  cases Integer.add? x s <;> rfl

/-- The machines on which a loop decides on a turn, with the number of turns before: each turn
evaluates the body and moves the counter by the step. -/
inductive Head (stack : CallStack) (counter : String) (body : Node) (s : Int64) (m₀ : Machine) :
    Nat → Machine → Prop
  | first : Head stack counter body s m₀ 0 m₀
  | next {k : Nat} {m m₁ m₂ : Machine} {f : Flow} (before : Head stack counter body s m₀ k m)
      (turn : Evaluates stack body m f m₁)
      (moved : advance stack counter (.int s) m₁ = .value () m₂) :
      Head stack counter body s m₀ (k + 1) m₂

/-- With the counter `x` kept aside, the bounds evaluate to integers without
changing the machine. -/
structure Bounds (ev : Evaluator) (stack : CallStack) (final step : Node) (b s x : Int64)
    (m : Machine) :
    Prop where
  bound : ev.value (stack.hold [.int x]) final m = .value (.int b) m
  increment : ev.value (stack.hold [.int x, .int b]) step m = .value (.int s) m

/-- Before a turn, the counter is `x`, and the bounds evaluate to integers. -/
structure Looks (ev : Evaluator) (stack : CallStack) (counter : String) (final step : Node)
    (b s x : Int64) (m : Machine) : Prop extends Bounds ev stack final step b s x m where
  current : m.scopes.find? stack.chain counter = some (.int x)

theorem Looks.forTurns_eq (h : Looks self stack counter final step b s x m) {beyond : Bool}
    (decided : passed (.int x) (.int b) (.int s) = .ok beyond) (turns : Nat) :
    forTurns self stack counter final step body (turns + 1) m =
      (if beyond then return .done
      else do
        match left? (← self stack body) with
        | some f => return f
        | none =>
          advance stack counter (.int s)
          forTurns self stack counter final step body turns : Run Flow) m := by
  have hdecided : Run.ofExcept (passed (.int x) (.int b) (.int s)) m = .value beyond m := by
    rw [decided]
    rfl
  rw [forTurns, Run.bind_of_value (Run.lookup_of_find? h.current), Run.bind_of_value h.bound,
    Run.bind_of_value h.increment]
  exact Run.bind_of_value hdecided

/-- Beyond the limit the loop ends. -/
theorem Looks.ends (h : Looks self stack counter final step b s x m)
    (decided : passed (.int x) (.int b) (.int s) = .ok true) (turns : Nat) :
    forTurns self stack counter final step body (turns + 1) m = .value .done m := by
  rw [h.forTurns_eq decided]
  rfl

/-- An error of the body ends the loop. -/
theorem Looks.fails (h : Looks self stack counter final step b s x m)
    (decided : passed (.int x) (.int b) (.int s) = .ok false) {e : Error}
    (turn : self stack body m = .failure e m₁) (turns : Nat) :
    forTurns self stack counter final step body (turns + 1) m = .failure e m₁ := by
  rw [h.forTurns_eq decided]
  exact Run.bind_of_failure turn

/-- If the body does not leave the loop, it goes on when the counter has been moved. -/
theorem Looks.goes_on (h : Looks self stack counter final step b s x m)
    (decided : passed (.int x) (.int b) (.int s) = .ok false)
    (turn : self stack body m = .value f m₁) (stays : left? f = none) (turns : Nat) :
    forTurns self stack counter final step body (turns + 1) m =
      (advance stack counter (.int s) >>= fun _ =>
        forTurns self stack counter final step body turns) m₁ := by
  rw [h.forTurns_eq decided]
  show (self stack body >>= fun flow => _) m = _
  rw [Run.bind_of_value turn, stays]

end Turns

/-! ### Whole runs -/

/-- The machines on the way of a loop: `heads k` before the turn after `k` turns,
`tails k` after its body. -/
structure Track (stack : CallStack) (counter : String) (a b s : Int64) (m₀ : Machine)
    (heads tails : Nat → Machine) : Prop where
  first : heads 0 = bindCounter stack counter a m₀
  current : ∀ k ≤ turnCount a b s, Reached a s k →
    (heads k).scopes.find? stack.chain counter = some (.int (counterAt a s k))
  moved : ∀ k < turnCount a b s, Reached a s (k + 1) →
    advance stack counter (.int s) (tails k) = .value () (heads (k + 1))
  stuck : ∀ k < turnCount a b s, ¬Reached a s (k + 1) →
    advance stack counter (.int s) (tails k) = .failure (.run .integerOverflow) (tails k)

/-- An evaluator goes along the way: the bounds evaluate to their integers, and the body ends
without leaving the loop. -/
structure Course (ev : Evaluator) (stack : CallStack) (initial final step body : Node)
    (a b s : Int64) (m m₀ : Machine) (heads tails : Nat → Machine) (flows : Nat → Flow) : Prop where
  started : ev.value stack initial m = .value (.int a) m₀
  bounds : ∀ k ≤ turnCount a b s, Reached a s k →
    Bounds ev stack final step b s (counterAt a s k) (heads k)
  turn : ∀ k < turnCount a b s, ev stack body (heads k) = .value (flows k) (tails k)
  stays : ∀ k < turnCount a b s, left? (flows k) = none

section Runs

variable {self : Evaluator} {stack : CallStack} {counter : String} {initial final step body : Node}
  {a b s : Int64} {k turns : Nat} {m m₀ : Machine} {heads tails : Nat → Machine}
  {flows : Nat → Flow}

theorem Track.heads_injective (h : Track stack counter a b s m₀ heads tails) (hs : s ≠ 0)
    {j k : Nat} (hj : j ≤ turnCount a b s) (hk : k ≤ turnCount a b s) (reached : Reached a s j)
    (reached' : Reached a s k) (heq : heads j = heads k) : j = k := by
  have hj' := h.current j hj reached
  rw [heq, h.current k hk reached'] at hj'
  injection hj' with hvalue
  injection hvalue with hcounter
  have hnumber := congrArg Int64.toInt hcounter
  rw [reached.toInt_counterAt, reached'.toInt_counterAt, add_right_inj] at hnumber
  exact_mod_cast (mul_right_cancel₀ (Integer.toInt_ne_zero_iff.2 hs) hnumber).symm

theorem Track.looks (h : Track stack counter a b s m₀ heads tails) (hk : k ≤ turnCount a b s)
    (reached : Reached a s k)
    (bounds : Bounds self stack final step b s (counterAt a s k) (heads k)) :
    Looks self stack counter final step b s (counterAt a s k) (heads k) :=
  ⟨bounds, h.current k hk reached⟩

/-- One turn after another leads to the next heads, as long as there are turns left. -/
theorem Track.reach (h : Track stack counter a b s m₀ heads tails) (hs : s ≠ 0)
    (hk : k ≤ turnCount a b s) (reached : Reached a s k)
    (bounds : ∀ j < k, Bounds self stack final step b s (counterAt a s j) (heads j))
    (turn : ∀ j < k, self stack body (heads j) = .value (flows j) (tails j) ∧
      left? (flows j) = none)
    (turns : Nat) :
    forTurns self stack counter final step body (k + turns) (heads 0) =
      forTurns self stack counter final step body turns (heads k) := by
  induction k generalizing turns with
  | zero => rw [Nat.zero_add]
  | succ k ih =>
    have hlt : k < turnCount a b s := hk
    have hreached := reached_of_lt hs hlt
    have hlook := h.looks hlt.le hreached (bounds k (Nat.lt_succ_self k))
    obtain ⟨hturn, hstays⟩ := turn k (Nat.lt_succ_self k)
    have hearlier := ih hlt.le hreached (fun j hj => bounds j (Nat.lt_succ_of_lt hj))
      (fun j hj => turn j (Nat.lt_succ_of_lt hj)) (turns + 1)
    rw [show k + 1 + turns = k + (turns + 1) by omega, hearlier,
      hlook.goes_on (passed_of_lt hs hlt) hturn hstays,
      Run.bind_of_value (h.moved k hlt reached)]

/-- A loop first binds its counter. -/
theorem Track.evaluate_eq {ss : List Node} (track : Track stack counter a b s m₀ heads tails)
    (started : self.value stack initial m = .value (.int a) m₀) (turns : Nat) :
    (Node.construct (.forLoop counter) [initial, final, step] ss).evaluate self turns stack m =
      forTurns self stack counter final step (.block ss) turns (heads 0) := by
  rw [Node.evaluate_forLoop, Run.bind_of_value started, track.first]
  rfl

/-- A loop that goes along its way makes all its turns. It ends after the last one, unless the
counter cannot be moved any more; then it fails. -/
theorem Course.outcome {ss : List Node} (hs : s ≠ 0)
    (course : Course self stack initial final step (.block ss) a b s m m₀ heads tails flows)
    (track : Track stack counter a b s m₀ heads tails) (enough : turnCount a b s < turns) :
    (Reached a s (turnCount a b s) →
      (Node.construct (.forLoop counter) [initial, final, step] ss).evaluate self turns stack m =
        .value .done (heads (turnCount a b s))) ∧
    (¬Reached a s (turnCount a b s) → 0 < turnCount a b s ∧
      (Node.construct (.forLoop counter) [initial, final, step] ss).evaluate self turns stack m =
        .failure (.run .integerOverflow) (tails (turnCount a b s - 1))) := by
  have hbounds (j : Nat) (hj : j < turnCount a b s) := course.bounds j hj.le (reached_of_lt hs hj)
  have hturn (j : Nat) (hj : j < turnCount a b s) :=
    And.intro (course.turn j hj) (course.stays j hj)
  rw [track.evaluate_eq course.started]
  constructor
  · intro reached
    obtain ⟨more, rfl⟩ := Nat.exists_eq_add_of_lt enough
    have hlook := track.looks le_rfl reached (course.bounds _ le_rfl reached)
    have hdecided :
        passed (.int (counterAt a s (turnCount a b s))) (.int b) (.int s) = .ok true := by
      rw [reached.passed_counterAt hs, decide_eq_true le_rfl]
    rw [add_assoc, track.reach hs le_rfl reached hbounds hturn, hlook.ends hdecided]
  · intro unreached
    have hpos : 0 < turnCount a b s := by
      by_contra hzero
      rw [Nat.eq_zero_of_not_pos hzero] at unreached
      exact unreached (reached_zero a s)
    obtain ⟨k, hk⟩ := Nat.exists_eq_add_of_lt hpos
    rw [Nat.zero_add] at hk
    have hlt : k < turnCount a b s := by omega
    have reached := reached_of_lt hs hlt
    obtain ⟨more, rfl⟩ := Nat.exists_eq_add_of_lt (hlt.trans enough)
    have hlook := track.looks hlt.le reached (hbounds k hlt)
    rw [add_assoc, track.reach hs hlt.le reached (fun j hj => hbounds j (hj.trans hlt))
      (fun j hj => hturn j (hj.trans hlt)),
        hlook.goes_on (passed_of_lt hs hlt) (hturn k hlt).1 (hturn k hlt).2,
      Run.bind_of_failure (track.stuck k hlt (hk ▸ unreached))]
    exact ⟨hpos, by rw [hk, Nat.add_sub_cancel]⟩

/-! ### From a body that keeps the counter -/

theorem Head.unique {m m' : Machine} (h : Head stack counter body s m₀ k m)
    (h' : Head stack counter body s m₀ k m') : m = m' := by
  induction h generalizing m' with
  | first => cases h'; rfl
  | next before turn moved ih =>
    cases h' with
    | next before' turn' moved' =>
      cases ih before'
      obtain ⟨-, rfl⟩ := turn.unique turn'
      rw [moved] at moved'
      cases moved'
      rfl

/-- From each head before the last one, the body ends without leaving the loop, and the value of the
counter is the same as before. -/
def Keeps (stack : CallStack) (counter : String) (body : Node) (a b s : Int64)
    (m₀ : Machine) : Prop :=
  ∀ k < turnCount a b s, ∀ m, Head stack counter body s m₀ k m →
    ∃ f m', Evaluates stack body m f m' ∧
    (f = .done ∨ f = .signal .continueLoop) ∧
    m'.scopes.find? stack.chain counter = m.scopes.find? stack.chain counter

/-- The counter after a turn is the one before it and the step. -/
theorem advance_counterAt (reached : Reached a s k)
    (current : m.scopes.find? stack.chain counter = some (.int (counterAt a s k))) :
    (Reached a s (k + 1) → advance stack counter (.int s) m =
      .value () (bindCounter stack counter (counterAt a s (k + 1)) m)) ∧
    (¬Reached a s (k + 1) →
      advance stack counter (.int s) m = .failure (.run .integerOverflow) m) := by
  rw [advance_eq current, reached.add?_counterAt]
  constructor
  · intro hnext
    rw [Integer.ofInt?_of_fits hnext]
    rfl
  · intro hnext
    rw [Integer.ofInt?_eq_none_iff.2 hnext]

/-- There is a head after each number of turns up to the last one, and the counter
has been moved as often. -/
theorem Keeps.exists_head (keeps : Keeps stack counter body a b s m₀) (hs : s ≠ 0)
    (first : m₀.scopes.find? stack.chain counter = some (.int a)) (hk : k ≤ turnCount a b s)
    (reached : Reached a s k) :
    ∃ m, Head stack counter body s m₀ k m ∧
      m.scopes.find? stack.chain counter = some (.int (counterAt a s k)) := by
  induction k with
  | zero => exact ⟨m₀, .first, by rw [counterAt_zero]; exact first⟩
  | succ k ih =>
    have hreached := reached_of_lt hs (Nat.lt_of_succ_le hk)
    obtain ⟨m, head, current⟩ := ih (Nat.le_of_succ_le hk) hreached
    obtain ⟨f, m', turn, -, same⟩ := keeps k (Nat.lt_of_succ_le hk) m head
    rw [current] at same
    have hmoved := (advance_counterAt hreached same).1 reached
    exact ⟨_, .next head turn hmoved, Scopes.find?_assignShared_of_bound same⟩

/-- The way of a loop whose body keeps the counter. -/
theorem Keeps.exists_track (keeps : Keeps stack counter body a b s (bindCounter stack counter a m₀))
    (hs : s ≠ 0)
    (first : (bindCounter stack counter a m₀).scopes.find? stack.chain counter = some (.int a)) :
    ∃ (heads tails : Nat → Machine) (flows : Nat → Flow),
      Track stack counter a b s m₀ heads tails ∧
      (∀ k ≤ turnCount a b s, Reached a s k →
        Head stack counter body s (bindCounter stack counter a m₀) k (heads k)) ∧
      ∀ k < turnCount a b s,
        Evaluates stack body (heads k) (flows k) (tails k) ∧ left? (flows k) = none := by
  have hheads (k : Nat) : ∃ m, k ≤ turnCount a b s → Reached a s k →
      Head stack counter body s (bindCounter stack counter a m₀) k m ∧
        m.scopes.find? stack.chain counter = some (.int (counterAt a s k)) := by
    by_cases hk : k ≤ turnCount a b s ∧ Reached a s k
    · obtain ⟨m, hm⟩ := keeps.exists_head hs first hk.1 hk.2
      exact ⟨m, fun _ _ => hm⟩
    · exact ⟨m₀, fun h h' => absurd ⟨h, h'⟩ hk⟩
  choose heads hheads using hheads
  have hturns (k : Nat) : ∃ f m', k < turnCount a b s →
      Evaluates stack body (heads k) f m' ∧ left? f = none ∧
        m'.scopes.find? stack.chain counter = some (.int (counterAt a s k)) := by
    by_cases hk : k < turnCount a b s
    · obtain ⟨head, current⟩ := hheads k hk.le (reached_of_lt hs hk)
      obtain ⟨f, m', turn, stays, same⟩ := keeps k hk _ head
      refine ⟨f, m', fun _ => ⟨turn, ?_, same.trans current⟩⟩
      rcases stays with rfl | rfl <;> rfl
    · exact ⟨.done, m₀, fun h => absurd h hk⟩
  choose flows tails hturns using hturns
  refine ⟨heads, tails, flows,
    ⟨?_, fun k hk h => (hheads k hk h).2, fun k hk h => ?_, fun k hk h => ?_⟩,
    fun k hk h => (hheads k hk h).1, fun k hk => ⟨(hturns k hk).1, (hturns k hk).2.1⟩⟩
  · exact (hheads 0 (Nat.zero_le _) (reached_zero a s)).1.unique .first
  · obtain ⟨turn, -, same⟩ := hturns k hk
    have hreached := reached_of_lt hs hk
    have hmoved := (advance_counterAt hreached same).1 h
    rw [hmoved, (hheads (k + 1) hk h).1.unique (.next (hheads k hk.le hreached).1 turn hmoved)]
  · exact (advance_counterAt (reached_of_lt hs hk) (hturns k hk).2.2).2 h

/-- The finitely many evaluations on the way of a loop all end if there is enough fuel. -/
theorem eventually_course (started : Evaluates stack initial m (.value (.int a)) m₀)
    (bounds : ∀ k ≤ turnCount a b s, Reached a s k →
      Evaluates stack final (heads k) (.value (.int b)) (heads k) ∧
      Evaluates stack step (heads k) (.value (.int s)) (heads k))
    (turns : ∀ k < turnCount a b s, Evaluates stack body (heads k) (flows k) (tails k) ∧
      left? (flows k) = none) :
    ∀ᶠ fuel in Filter.atTop, turnCount a b s < fuel ∧
      Course (eval fuel) stack initial final step body a b s m m₀ heads tails flows := by
  have hbounds : ∀ᶠ fuel in Filter.atTop, ∀ k ∈ Finset.range (turnCount a b s + 1), Reached a s k →
      Bounds (eval fuel) stack final step b s (counterAt a s k) (heads k) := by
    refine (Filter.eventually_all_finset _).2 fun k hk =>
      Filter.eventually_imp_distrib_left.2 fun reached => ?_
    obtain ⟨hbound, hincrement⟩ := bounds k (Nat.lt_succ_iff.1 (Finset.mem_range.1 hk)) reached
    filter_upwards [(hbound.hold_integers [counterAt a s k]).value_eventually,
      (hincrement.hold_integers [counterAt a s k, b]).value_eventually] with fuel hfinal hstep
    exact ⟨hfinal, hstep⟩
  have hbodies : ∀ᶠ fuel in Filter.atTop, ∀ k ∈ Finset.range (turnCount a b s),
      eval fuel stack body (heads k) = .value (flows k) (tails k) :=
    (Filter.eventually_all_finset _).2 fun k hk => (turns k (Finset.mem_range.1 hk)).1.eventually
  filter_upwards
    [started.value_eventually, hbounds, hbodies, Filter.eventually_gt_atTop (turnCount a b s)]
    with fuel hstart hbound hbody hlt
  exact ⟨hlt, hstart, fun k hk => hbound k (Finset.mem_range.2 (Nat.lt_succ_of_le hk)),
    fun k hk => hbody k (Finset.mem_range.2 hk), fun k hk => (turns k hk).2⟩

end Runs
end Loop

/-! ### The moments at which the body is evaluated -/

namespace Loop

section Bodies

variable {stack : CallStack} {counter : String} {initial final step body : Node} {ss : List Node}
  {a b s : Int64} {fuel : Nat} {m m₀ : Machine} {heads tails : Nat → Machine} {flows : Nat → Flow}
  {q : Moment}

/-- The answer to another node than the bounds does not matter to them. -/
theorem Bounds.answering {self : Evaluator} {x : Int64} (h : Bounds self stack final step b s x m)
    (o : Outcome Flow) (hfinal : final ≠ q.node) (hstep : step ≠ q.node) :
    Bounds (self.answering q o) stack final step b s x m :=
  ⟨by rw [value_answering hfinal, h.bound], by rw [value_answering hstep, h.increment]⟩

/-- The answer at the start of the body does not matter to a course that does not
come to the body there. -/
theorem Course.answering {self : Evaluator}
    (h : Course self stack initial final step body a b s m m₀ heads tails flows) (o : Outcome Flow)
    (hinitial : initial ≠ q.node) (hfinal : final ≠ q.node) (hstep : step ≠ q.node)
    (elsewhere : ∀ k < turnCount a b s, ¬(stack = q.stack ∧ body = q.node ∧ heads k = q.machine)) :
    Course (self.answering q o) stack initial final step body a b s m m₀ heads tails flows where
  started := by rw [value_answering hinitial, h.started]
  bounds k hk reached := (h.bounds k hk reached).answering o hfinal hstep
  turn k hk := (if_neg (elsewhere k hk)).trans (h.turn k hk)
  stays := h.stays

/-- On other machines than the heads, the body is not evaluated: an error there would be
no error of the loop. -/
theorem Course.asks_head (hs : s ≠ 0)
    (course : Course (eval fuel) stack initial final step (.block ss) a b s m m₀ heads tails flows)
    (track : Track stack counter a b s m₀ heads tails) (enough : turnCount a b s < fuel)
    (hinitial : initial ≠ q.node) (hfinal : final ≠ q.node) (hstep : step ≠ q.node)
    (asks : Moment.Asks
      ⟨fuel + 1, stack, .construct (.forLoop counter) [initial, final, step] ss, m⟩ q) :
    q.fuel = fuel ∧ q.stack = stack ∧ ∃ k < turnCount a b s, q.machine = heads k := by
  obtain ⟨hfuel, hends⟩ := asks
  cases Nat.succ.inj hfuel
  by_contra hother
  have hcourse (e : Error) := (course.answering (.failure e q.machine) hinitial hfinal hstep
    fun k hk heq => hother ⟨rfl, heq.1.symm, k, hk, heq.2.2.symm⟩).outcome hs track enough
  by_cases reached : Reached a s (turnCount a b s)
  · exact not_forall_failure fun e => ((hcourse e).1 reached).symm.trans (hends e)
  · exact not_forall_failure fun e => ((hcourse e).2 reached).2.symm.trans (hends e)

/-- On each head before the last one, the body is evaluated: an error there
is the end of the loop. -/
theorem Course.asks_of_head (hs : s ≠ 0)
    (course : Course (eval fuel) stack initial final step (.block ss) a b s m m₀ heads tails flows)
    (track : Track stack counter a b s m₀ heads tails) (enough : turnCount a b s < fuel)
    (hinitial : initial ≠ q.node) (hfinal : final ≠ q.node) (hstep : step ≠ q.node)
    (hbody : q.node = .block ss) (hfuel : q.fuel = fuel) (hstack : q.stack = stack) {k : Nat}
    (hk : k < turnCount a b s) (hmachine : q.machine = heads k) :
    Moment.Asks
      ⟨fuel + 1, stack, .construct (.forLoop counter) [initial, final, step] ss, m⟩ q := by
  subst hfuel
  refine ⟨rfl, fun e => ?_⟩
  have hreached (j : Nat) (hj : j ≤ k) := reached_of_lt hs (hj.trans_lt hk)
  have hstarted :
      ((eval q.fuel).answering q (.failure e q.machine)).value stack initial m =
        .value (.int a) m₀ := by
    rw [value_answering hinitial, course.started]
  have hbounds (j : Nat) (hj : j ≤ k) :
      Bounds ((eval q.fuel).answering q (.failure e q.machine)) stack final step
      b s (counterAt a s j) (heads j) :=
    (course.bounds j (hj.trans hk.le) (hreached j hj)).answering _ hfinal hstep
  have hturn (j : Nat) (hj : j < k) :
      (eval q.fuel).answering q (.failure e q.machine) stack (.block ss) (heads j) =
        .value (flows j) (tails j) ∧
        left? (flows j) = none := by
    refine ⟨(if_neg fun heq => hj.ne ?_).trans (course.turn j (hj.trans hk)),
      course.stays j (hj.trans hk)⟩
    exact track.heads_injective hs (hj.trans hk).le hk.le (hreached j hj.le) (hreached k le_rfl)
      (heq.2.2.trans hmachine)
  have hfails : (eval q.fuel).answering q (.failure e q.machine) stack (.block ss) (heads k) =
      .failure e q.machine := if_pos ⟨hstack.symm, hbody.symm, hmachine.symm⟩
  show Node.evaluate ((eval q.fuel).answering q (.failure e q.machine)) q.fuel stack _ m = _
  generalize (eval q.fuel).answering q (.failure e q.machine) = self
    at hstarted hbounds hturn hfails ⊢
  obtain ⟨more, hmore⟩ := Nat.exists_eq_add_of_lt (hk.trans enough)
  rw [track.evaluate_eq hstarted, hmore, add_assoc,
    track.reach hs hk.le (hreached k le_rfl) (fun j hj => hbounds j hj.le) hturn]
  exact (track.looks hk.le (hreached k le_rfl) (hbounds k le_rfl)).fails
    (passed_of_lt hs hk) hfails more

/-- The body is evaluated on the heads before the last one, and on no other machines. -/
theorem Course.asks_iff (hs : s ≠ 0)
    (course : Course (eval fuel) stack initial final step (.block ss) a b s m m₀ heads tails flows)
    (track : Track stack counter a b s m₀ heads tails) (enough : turnCount a b s < fuel)
    (hinitial : initial ≠ .block ss) (hfinal : final ≠ .block ss) (hstep : step ≠ .block ss)
    (hbody : q.node = .block ss) :
    Moment.Asks ⟨fuel + 1, stack, .construct (.forLoop counter) [initial, final, step] ss, m⟩ q ↔
      q.fuel = fuel ∧ q.stack = stack ∧ ∃ k < turnCount a b s, q.machine = heads k := by
  rw [← hbody] at hinitial hfinal hstep
  constructor
  · exact course.asks_head hs track enough hinitial hfinal hstep
  · rintro ⟨hfuel, hstack, k, hk, hmachine⟩
    exact course.asks_of_head hs track enough hinitial hfinal hstep hbody hfuel hstack hk hmachine

end Bodies
end Loop

/-- A counted loop with integer bounds, wherever it stands in a run of a program. Its bounds are
always the same integers, and from every machine on which the loop can decide on a turn, the body
ends normally or with the signal to continue and leaves the value of the counter as it is. Then the
loop evaluates its body exactly on `count` machines, one after another, with the counter at `a`,
`a + s` and so on. With the next counter, `a + count * s`, it ends, if that fits; otherwise it fails
with an overflow on the machine that the last body has left. -/
theorem counted_loop_turns {tree : Node} {depth : Nat} {start p : Moment}
    (starts : start.Starts tree depth) (visits : start.Visits p) {counter : String}
    {initial final step : Node} {ss : List Node}
    (loop : p.node = .construct (.forLoop counter) [initial, final, step] ss) {a b s : Int64}
    (nonzero : s ≠ 0) {m₀ : Machine}
    (started : Evaluates p.stack initial p.machine (.value (.int a)) m₀)
    (bounds : ∀ k ≤ Loop.turnCount a b s, ∀ m,
      Loop.Head p.stack counter (.block ss) s (Loop.bindCounter p.stack counter a m₀) k m →
      Evaluates p.stack final m (.value (.int b)) m ∧ Evaluates p.stack step m (.value (.int s)) m)
    (keeps : Loop.Keeps p.stack counter (.block ss) a b s (Loop.bindCounter p.stack counter a m₀)) :
    let count := Loop.turnCount a b s
    let head := Loop.Head p.stack counter (.block ss) s (Loop.bindCounter p.stack counter a m₀)
    ∃ (heads : Nat → Machine) (last : Machine) (enough : Nat),
      (∀ k < count, head k (heads k) ∧ ∃ x : Int64, x.toInt = a.toInt + k * s.toInt ∧
        (heads k).scopes.find? p.stack.chain counter = some (.int x)) ∧
      ∀ fuel, enough ≤ fuel →
        (∀ q : Moment, q.node = .block ss → (Moment.Asks ⟨fuel + 1, p.stack, p.node, p.machine⟩ q ↔
          q.fuel = fuel ∧ q.stack = p.stack ∧ ∃ k < count, q.machine = heads k)) ∧
        (Integer.Fits (a.toInt + count * s.toInt) →
          eval (fuel + 1) p.stack p.node p.machine = .value .done last ∧ head count last ∧
          ∃ x : Int64, x.toInt = a.toInt + count * s.toInt ∧
            last.scopes.find? p.stack.chain counter = some (.int x)) ∧
        (¬Integer.Fits (a.toInt + count * s.toInt) →
          eval (fuel + 1) p.stack p.node p.machine = .failure (.run .integerOverflow) last ∧
          0 < count ∧ ∃ f, Evaluates p.stack (.block ss) (heads (count - 1)) f last) := by
  intro count head
  -- the counter is bound where it is found, as the call still has its scope
  obtain ⟨fuel₀, hfuel₀⟩ := id started
  obtain ⟨inside, stored⟩ := (starts.inOrder.visits visits).innermost_stored
    (show (eval fuel₀ p.stack initial p.machine).machine? = some m₀ by rw [hfuel₀]; rfl)
  have first :
      (Loop.bindCounter p.stack counter a m₀).scopes.find? p.stack.chain counter = some (.int a) :=
    Scopes.find?_assignShared inside stored
  obtain ⟨heads, tails, flows, track, hheads, hturns⟩ := keeps.exists_track nonzero first
  have hbounds (k : Nat) (hk : k ≤ count) (reached : Loop.Reached a s k) :=
    bounds k hk _ (hheads k hk reached)
  obtain ⟨enough, hcourse⟩ :=
    Filter.eventually_atTop.1 (Loop.eventually_course started hbounds hturns)
  have hcurrent (k : Nat) (hk : k ≤ count) (reached : Loop.Reached a s k) : ∃ x : Int64,
      x.toInt = a.toInt + k * s.toInt ∧
        (heads k).scopes.find? p.stack.chain counter = some (.int x) :=
    ⟨_, reached.toInt_counterAt, track.current k hk reached⟩
  have hmoments (fuel : Nat) (hfuel : enough ≤ fuel) (q : Moment) (hq : q.node = .block ss) :
      Moment.Asks ⟨fuel + 1, p.stack, p.node, p.machine⟩ q ↔
        q.fuel = fuel ∧ q.stack = p.stack ∧ ∃ k < count, q.machine = heads k := by
    obtain ⟨hlt, course⟩ := hcourse fuel hfuel
    -- the other parts of the loop have values, which a block has not
    obtain ⟨hbound, hincrement⟩ := hbounds 0 (Nat.zero_le _) (Loop.reached_zero a s)
    rw [loop]
    exact course.asks_iff nonzero track hlt (started.ne_block ss) (hbound.ne_block ss)
      (hincrement.ne_block ss) hq
  have hends (fuel : Nat) (hfuel : enough ≤ fuel) :=
    (hcourse fuel hfuel).2.outcome nonzero track (hcourse fuel hfuel).1
  have hheads' (k : Nat) (hk : k < count) :=
    And.intro (hheads k hk.le (Loop.reached_of_lt nonzero hk))
    (hcurrent k hk.le (Loop.reached_of_lt nonzero hk))
  by_cases reached : Loop.Reached a s count
  · refine ⟨heads, heads count, enough, hheads', fun fuel hfuel =>
      ⟨hmoments fuel hfuel, fun _ => ?_, fun h => absurd reached h⟩⟩
    rw [loop]
    exact ⟨(hends fuel hfuel).1 reached, hheads count le_rfl reached, hcurrent count le_rfl reached⟩
  · refine ⟨heads, tails (count - 1), enough, hheads', fun fuel hfuel => ⟨hmoments fuel hfuel,
      fun h => absurd h reached, fun _ => ?_⟩⟩
    obtain ⟨hpos, hfails⟩ := (hends fuel hfuel).2 reached
    rw [loop]
    exact ⟨hfails, hpos, _, (hturns (count - 1) (by omega)).1⟩

/-- Three turns that all end with the signal to continue, and two turns at the end of the integers,
after which the counter cannot be moved. -/
theorem counted_loop_turns_both_ends :
    let source := "FOR I = 1 TO 6 STEP 2\nCONTINUE FOR\nNEXT\n" ++
      "FOR I = 9223372036854775806 TO 9223372036854775807\nNEXT"
    ∃ (tree odd greatest : Node) (m m' : Machine) (enough : Nat),
      Reader.program? [] [source] = some tree ∧ tree.children = [odd, greatest] ∧
      m.scopes.find? [Scopes.global] "I" = some (.int 7) ∧
      ∀ fuel, enough ≤ fuel →
        eval (fuel + 1) (.bottom 256) odd (.fresh .still .empty (.ofOctets [])) = .value .done m ∧
        eval (fuel + 1) (.bottom 256) greatest (.fresh .still .empty (.ofOctets [])) =
          .failure (.run .integerOverflow) m' := by
  intro source
  let stack : CallStack := .bottom 256
  let loop (a b s : Int64) (ss : List Node) : Node :=
    .construct (.forLoop "I") [.literal (.int a), .literal (.int b), .literal (.int s)] ss
  let again : List Node := [.plain .continueLoop []]
  let odd := loop 1 6 2 again
  let greatest := loop 9223372036854775806 9223372036854775807 1 []
  have read : Reader.program? [] [source] = some (.program [odd, greatest]) := by decide +kernel
  generalize hfresh : Machine.fresh .still .empty (.ofOctets []) = fresh
  have starts (n : Node) (hn : n ∈ [odd, greatest]) :
      Moment.Starts (.program [odd, greatest]) 256 ⟨2, stack, n, fresh⟩ :=
    ⟨rfl, .tail _ hn, hfresh ▸ .fresh .still .empty (.ofOctets [])⟩
  -- literals have their values on all machines, and the bodies end on all of them
  have hliteral (x : Int64) (m : Machine) :
      Evaluates stack (.literal (.int x)) m (.value (.int x)) m := ⟨1, rfl⟩
  have hcontinue (m : Machine) :
      Evaluates stack (.block again) m (.signal .continueLoop) m := ⟨3, rfl⟩
  have hempty (m : Machine) : Evaluates stack (.block []) m .done m := ⟨1, rfl⟩
  have hthree : Loop.turnCount 1 6 2 = 3 := by
    rw [Loop.turnCount, Integer.floor_eq_of_tdiv (by decide)]
    decide
  have htwo : Loop.turnCount 9223372036854775806 9223372036854775807 1 = 2 := by
    rw [Loop.turnCount, Integer.floor_eq_of_tdiv (by decide)]
    decide
  obtain ⟨heads, m, enough, -, hruns⟩ :=
    counted_loop_turns (starts odd (.head _)) .refl rfl (by decide)
    (hliteral 1 fresh) (fun k _ m _ => ⟨hliteral 6 m, hliteral 2 m⟩)
    fun k _ m _ => ⟨_, m, hcontinue m, .inr rfl, rfl⟩
  obtain ⟨heads', m', enough', -, hruns'⟩ :=
    counted_loop_turns (starts greatest (.tail _ (.head _))) .refl rfl
    (by decide) (hliteral 9223372036854775806 fresh)
    (fun k _ m _ => ⟨hliteral 9223372036854775807 m, hliteral 1 m⟩)
    fun k _ m _ => ⟨_, m, hempty m, .inl rfl, rfl⟩
  rw [hthree] at hruns
  rw [htwo] at hruns'
  have hfits : Integer.Fits ((1 : Int64).toInt + (3 : Nat) * (2 : Int64).toInt) := by
    unfold Integer.Fits; decide
  have hbeyond :
      ¬Integer.Fits ((9223372036854775806 : Int64).toInt + (2 : Nat) * (1 : Int64).toInt) := by
    unfold Integer.Fits; decide
  obtain ⟨x, hx, hfound⟩ := ((hruns enough le_rfl).2.1 hfits).2.2
  have hseven : x = 7 := Int64.toInt_inj.1 hx
  refine ⟨.program [odd, greatest], odd, greatest, m, m', max enough enough', read, rfl,
    hseven ▸ hfound, fun fuel hfuel => ⟨?_, ?_⟩⟩
  · exact ((hruns fuel (le_trans (Nat.le_max_left ..) hfuel)).2.1 hfits).1
  · exact ((hruns' fuel (le_trans (Nat.le_max_right ..) hfuel)).2.2 hbeyond).1

end LineBasic
