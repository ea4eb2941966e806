import LineBasic.Proofs.Signals
import LineBasic.Proofs.Surroundings

/-!
# Jumps and returns in a run

Source text says where a jump or a return may stand. Along every run of a program this is what
happens: a jump ends or continues the innermost loop around it, a return ends the innermost call,
and no other part of a run ends with a signal, so that none gets lost.

* `Moment.Starts` : what is executed: the program, or one of its statements, on a machine on which
  others may have been executed before.
* `Moment.Leads` : from moment to moment inside one call, through nodes of some kinds only.
* `Moment.Placed` : a moment of a run, with the loop and the call around it that its place promises.
* `Moment.Orderly` : all that is said about signals, at one moment of a run.
* `signals_in_order` : the moments of all runs are orderly, and jumps name the loops that they end.
-/

namespace LineBasic

/-! ### Signals of a part -/

namespace Moment

variable {place : Place} {p q : Moment} {s : Signal} {m : Machine}

theorem Asks.outcome_eq (h : p.Asks q) :
    p.outcome = p.node.evaluate (eval q.fuel) q.fuel p.stack p.machine := by
  rw [outcome, h.1, eval_succ]

theorem Asks.awaits (h : p.Asks q) :
    Awaits (eval q.fuel) q (fun ev => p.node.evaluate ev q.fuel p.stack) p.machine := h.2

/-- How a sound moment ends is something that its place takes. -/
theorem outcome_fits {f : Flow} (fit : p.node.Fits place) (sound : p.machine.Sound)
    (h : p.outcome = .value f m) : f.Fits place := by
  have hsafe := eval_safe p.fuel fit p.stack p.machine sound
  unfold outcome at h
  rw [h] at hsafe
  exact hsafe.2

theorem not_signal_of_top (fit : p.node.Fits .top) (sound : p.machine.Sound) :
    p.outcome ≠ .value (.signal s) m := by
  intro h
  have hfit := outcome_fits fit sound h
  cases s with
  | exitLoop => cases hfit
  | continueLoop => cases hfit
  | returned v => cases hfit.1

/-- A part that ends with a signal is no operand, and its node passes the signal on or is a loop. -/
theorem Asks.signals (fit : p.node.Fits place) (sound : p.machine.Sound) (h : p.Asks q)
    (same : q.stack = p.stack) (hq : q.outcome = .value (.signal s) m) :
    q.node ∉ p.node.operands ∧ (p.node.passesOn = true ∨ p.node.isLoop = true) := by
  rcases h.cases fit sound with ⟨-, hpart, hsound⟩ | ⟨held, c, args, m₀, hcall⟩
  · have hop : q.node ∉ p.node.operands := fun hop =>
      not_signal_of_top (.expression (fit.operand hop)) hsound hq
    rcases fit.part hpart with hpart | ⟨passing, -⟩ | ⟨looping, -⟩ | ⟨-, htop⟩
    · exact absurd hpart hop
    · exact ⟨hop, .inl passing⟩
    · exact ⟨hop, .inr looping⟩
    · exact absurd hq (not_signal_of_top htop hsound)
  · exact absurd (congrArg CallStack.frames same) hcall.frames_ne

theorem Asks.passes (fit : p.node.Fits place) (sound : p.machine.Sound) (h : p.Asks q)
    (same : q.stack = p.stack) (hq : q.outcome = .value (.signal s) m)
    (passing : p.node.passesOn = true) : p.outcome = .value (.signal s) m := by
  rw [h.outcome_eq]
  exact fit.passes passing (h.signals fit sound same hq).1 hq h.awaits

theorem Asks.leaves {f : Flow} (fit : p.node.Fits place) (sound : p.machine.Sound) (h : p.Asks q)
    (same : q.stack = p.stack) (hq : q.outcome = .value (.signal s) m)
    (looping : p.node.isLoop = true) (hleft : Loop.left? (.signal s) = some f) :
    p.outcome = .value f m := by
  rw [h.outcome_eq]
  exact fit.leaves looping (h.signals fit sound same hq).1 hq hleft h.awaits

theorem Asks.goes_on (fit : p.node.Fits place) (sound : p.machine.Sound) (h : p.Asks q)
    (same : q.stack = p.stack) (hq : q.outcome = .value (.signal .continueLoop) m)
    (looping : p.node.isLoop = true) : p.outcome = p.outcomeIf q (.value .done m) := by
  rw [h.outcome_eq]
  exact (fit.goes_on looping (h.signals fit sound same hq).1 hq p.machine).symm

/-- The end of the body of a call is the end of the call. -/
theorem Calls.enter_eq {held : List Value} {c : Closure} {args : List Value} {m₀ : Machine}
    (h : p.Calls q held c args m₀) :
    c.enter (eval q.fuel) (p.stack.hold held) args m₀ = Closure.leave q.outcome := by
  obtain ⟨hc, -, hstack, hnode, hmachine⟩ := h
  have hroom : (p.stack.hold held).isFull = false := hc.room
  rw [Closure.enter_eq _ hc.count hroom, outcome, hstack, hnode, hmachine]

/-- The body of a call ends with a value or with a return. -/
theorem Calls.returned {held : List Value} {c : Closure} {args : List Value} {m₀ : Machine}
    (h : p.Calls q held c args m₀) (hq : q.outcome = .value (.signal s) m) :
    ∃ v, s = .returned v := by
  have hfit := outcome_fits h.sound.2 h.sound.1 hq
  cases s with
  | exitLoop => cases hfit
  | continueLoop => cases hfit
  | returned v => exact ⟨v, rfl⟩

end Moment

/-! ### Around a moment -/

/-- The machines on which nodes have been executed one after another, whether they failed or not. -/
inductive Machine.Executed (limit : Nat) (units : List Node) : Machine → Prop
  | fresh (world : World) (disk : Disk) (input : Input) :
      Executed limit units (.fresh world disk input)
  | value {fuel : Nat} {n : Node} {f : Flow} {m m' : Machine} (before : Executed limit units m)
      (unit : n ∈ units) (run : eval fuel (.bottom limit) n m = .value f m') :
      Executed limit units m'
  | failure {fuel : Nat} {n : Node} {e : Error} {m m' : Machine} (before : Executed limit units m)
      (unit : n ∈ units) (run : eval fuel (.bottom limit) n m = .failure e m') :
      Executed limit units m'

namespace Moment

/-- A program is executed, or one of its statements. -/
structure Starts (tree : Node) (limit : Nat) (start : Moment) : Prop where
  stack : start.stack = .bottom limit
  unit : start.node ∈ tree :: tree.children
  machine : start.machine.Executed limit (tree :: tree.children)

/-- A moment leads to another one inside the same call, through nodes of some kinds. -/
def Leads (through : Node → Bool) : Moment → Moment → Prop :=
  Relation.ReflTransGen fun p q => p.Asks q ∧ q.stack = p.stack ∧ through p.node = true

/-- A moment of a run. If its place has a loop or a call around it, so has the moment: nothing but
blocks, branches and chains lies between it and the body of the loop, and nothing but these and
loops between it and the body of the call. -/
structure Placed (start : Moment) (place : Place) (x : Moment) : Prop where
  visited : start.Visits x
  fits : x.node.Fits place
  sound : x.machine.Sound
  loop : place.jumps = true → ∃ p body, start.Visits p ∧ p.node.isLoop = true ∧ p.Asks body ∧
    body.stack = p.stack ∧ body.Leads Node.passesOn x
  call : place.returns = true → ∃ p body held c args m, start.Visits p ∧ p.Asks body ∧
    p.Calls body held c args m ∧ body.Leads (fun n => n.passesOn || n.isLoop) x

variable {start x y : Moment} {place : Place}

theorem Placed.top (visited : start.Visits x) (fits : x.node.Fits .top) (sound : x.machine.Sound) :
    start.Placed .top x :=
  ⟨visited, fits, sound, nofun, nofun⟩

/-- What a moment of a run asks for is a moment of the run. -/
theorem Placed.step (hx : start.Placed place x) (h : x.Asks y) :
    ∃ place', start.Placed place' y := by
  have visited : start.Visits y := hx.visited.tail h
  rcases h.cases hx.fits hx.sound with ⟨same | ⟨-, he⟩, hpart, sound⟩ | ⟨held, c, args, m, hcall⟩
  -- an operand or a statement of a program has nothing around it that a signal could be for
  · rcases hx.fits.part hpart with hop | ⟨passing, fits⟩ | ⟨looping, fits⟩ | ⟨-, fits⟩
    · exact ⟨.top, .top visited (.expression (hx.fits.operand hop)) sound⟩
    · refine ⟨place, visited, fits, sound, fun jumps => ?_, fun returns => ?_⟩
      · obtain ⟨p, body, hp, hloop, hask, hstack, hlead⟩ := hx.loop jumps
        exact ⟨p, body, hp, hloop, hask, hstack, hlead.tail ⟨h, same, passing⟩⟩
      · obtain ⟨p, body, held, c, args, m, hp, hask, hcall, hlead⟩ := hx.call returns
        exact ⟨p, body, held, c, args, m, hp, hask, hcall, hlead.tail ⟨h, same, by simp [passing]⟩⟩
    · refine ⟨place.loop, visited, fits, sound, fun _ => ?_, fun returns => ?_⟩
      · exact ⟨x, y, hx.visited, looping, h, same, .refl⟩
      · obtain ⟨p, body, held, c, args, m, hp, hask, hcall, hlead⟩ := hx.call returns
        exact ⟨p, body, held, c, args, m, hp, hask, hcall, hlead.tail ⟨h, same, by simp [looping]⟩⟩
    · exact ⟨.top, .top visited fits sound⟩
  · exact ⟨.top, .top visited (.expression he) sound⟩
  · refine ⟨.call, visited, hcall.sound.2, hcall.sound.1, nofun, fun _ => ?_⟩
    exact ⟨x, y, held, c, args, m, hx.visited, h, hcall, .refl⟩

/-- Every moment of a run has a place. -/
theorem Visits.placed (hstart : start.Placed .top start) (h : start.Visits x) :
    ∃ place, start.Placed place x := by
  induction h with
  | refl => exact ⟨.top, hstart⟩
  | tail _ hask ih =>
    obtain ⟨place, hplaced⟩ := ih
    exact hplaced.step hask

/-- A signal goes outwards through nodes that do not take it. -/
theorem Leads.signal {through : Node → Bool} {b : Moment} {s : Signal} {m : Machine}
    (hstart : start.Placed .top start) (hb : start.Visits b)
    (hthrough : ∀ n, through n = true →
      n.passesOn = true ∨ n.isLoop = true ∧ Loop.left? (.signal s) = some (.signal s))
    (h : b.Leads through x) :
    start.Visits x ∧ (x.outcome = .value (.signal s) m → b.outcome = .value (.signal s) m) := by
  induction h with
  | refl => exact ⟨hb, id⟩
  | @tail y z _ hstep ih =>
    obtain ⟨hask, same, hkind⟩ := hstep
    -- from `z` the signal comes to `y`, and from there on as before
    refine ⟨ih.1.tail hask, fun hz => ih.2 ?_⟩
    obtain ⟨place, hy⟩ := ih.1.placed hstart
    rcases hthrough _ hkind with passing | ⟨looping, hleft⟩
    · exact hask.passes hy.fits hy.sound same hz passing
    · exact hask.leaves hy.fits hy.sound same hz looping hleft

/-- What becomes of a signal with which a part `y` of a run ends, at the moment `x` that asks for
it. It is passed on unless a loop takes it, or the call whose body it ends. -/
def Received (x y : Moment) (s : Signal) (m : Machine) : Prop :=
  x.outcome = .value (.signal s) m ∨
  (x.node.isLoop = true ∧ y.stack = x.stack ∧ s = .exitLoop ∧ x.outcome = .value .done m) ∨
  (x.node.isLoop = true ∧ y.stack = x.stack ∧ s = .continueLoop ∧
    x.outcome = x.outcomeIf y (.value .done m)) ∨
  ∃ held c args m₀ v, x.Calls y held c args m₀ ∧ s = .returned v ∧
    c.enter (eval y.fuel) (x.stack.hold held) args m₀ = .value v m

/-- The end of a loop whose body ended with a jump. -/
noncomputable def afterJump (p body : Moment) (m : Machine) : Jump → Outcome Flow
  | .exit => .value .done m
  | .skip => p.outcomeIf body (.value .done m)

/-- Signals are in order at a moment of a run. -/
structure Orderly (start x : Moment) : Prop where
  /-- What is executed ends with no signal. -/
  executed : ∀ s m, start.outcome ≠ .value (.signal s) m
  /-- The statements of a program end with no signal. -/
  statement : ∀ y s m, x.node.kind = .control .program → x.Asks y → y.stack = x.stack →
    y.outcome ≠ .value (.signal s) m
  /-- The body of a closure ends with a value or a return. -/
  body : ∀ y s m, x.Asks y → y.stack ≠ x.stack → y.outcome = .value (.signal s) m →
    ∃ v, s = .returned v
  /-- A loop ends neither with an exit nor with a skip. -/
  loop : ∀ s m, x.node.isLoop = true → x.outcome = .value (.signal s) m → ∃ v, s = .returned v
  /-- An expression ends with no signal. -/
  operand : ∀ y s m, x.Asks y → y.stack.frames = x.stack.frames → y.node ∈ x.node.operands →
    y.outcome ≠ .value (.signal s) m
  /-- No signal of a part gets lost. -/
  received : ∀ y s m, x.Asks y → y.outcome = .value (.signal s) m → x.Received y s m
  /-- What is not asked for has no influence. -/
  ignored : ∀ y o, x.fuel = y.fuel + 1 → ¬ x.Asks y → x.outcomeIf y o = x.outcome
  /-- A jump is inside a loop, in the same call. An exit ends the innermost one, and after a skip it
  goes on as after the normal end of its body. -/
  jump : ∀ j : Jump, x.node = j.node → x.fuel ≠ 0 →
    ∃ p body, start.Visits p ∧ p.node.isLoop = true ∧ p.Asks body ∧ body.stack = p.stack ∧
      body.Leads Node.passesOn x ∧ p.outcome = p.afterJump body x.machine j
  /-- A return is inside a call, and ends the innermost one with its value. -/
  returned : ∀ v m, x.node.kind = .control .returned →
    x.outcome = .value (.signal (.returned v)) m →
    ∃ p body held c args m₀, start.Visits p ∧ p.Asks body ∧ p.Calls body held c args m₀ ∧
      body.Leads (fun n => n.passesOn || n.isLoop) x ∧
      c.enter (eval body.fuel) (p.stack.hold held) args m₀ = .value v m

theorem Placed.received (hx : start.Placed place x) (h : x.Asks y) {s : Signal} {m : Machine}
    (hy : y.outcome = .value (.signal s) m) : x.Received y s m := by
  rcases h.cases hx.fits hx.sound with ⟨same | ⟨-, he⟩, -, sound⟩ | ⟨held, c, args, m₀, hcall⟩
  · rcases (h.signals hx.fits hx.sound same hy).2 with passing | looping
    · exact .inl (h.passes hx.fits hx.sound same hy passing)
    · cases s with
      | exitLoop =>
        exact .inr (.inl ⟨looping, same, rfl, h.leaves hx.fits hx.sound same hy looping rfl⟩)
      | continueLoop =>
        exact .inr (.inr (.inl ⟨looping, same, rfl, h.goes_on hx.fits hx.sound same hy looping⟩))
      | returned v => exact .inl (h.leaves hx.fits hx.sound same hy looping rfl)
  · exact absurd hy (not_signal_of_top (.expression he) sound)
  · obtain ⟨v, rfl⟩ := hcall.returned hy
    refine .inr (.inr (.inr ⟨held, c, args, m₀, v, hcall, rfl, ?_⟩))
    rw [hcall.enter_eq, hy]
    rfl

theorem Placed.loop_returned (hx : start.Placed place x) {s : Signal} {m : Machine}
    (looping : x.node.isLoop = true) (h : x.outcome = .value (.signal s) m) :
    ∃ v, s = .returned v := by
  have hfit := outcome_fits (hx.fits.of_loop looping) hx.sound h
  cases s with
  | exitLoop => cases hfit
  | continueLoop => cases hfit
  | returned v => exact ⟨v, rfl⟩

theorem Placed.jump (hstart : start.Placed .top start) (hx : start.Placed place x) {j : Jump}
    (hj : x.node = j.node) (fuelled : x.fuel ≠ 0) :
    ∃ p body, start.Visits p ∧ p.node.isLoop = true ∧ p.Asks body ∧ body.stack = p.stack ∧
      body.Leads Node.passesOn x ∧ p.outcome = p.afterJump body x.machine j := by
  obtain ⟨p, body, hp, looping, hask, same, hlead⟩ := hx.loop (hj ▸ hx.fits).jumps
  obtain ⟨place', hplaced⟩ := hp.placed hstart
  refine ⟨p, body, hp, looping, hask, same, hlead, ?_⟩
  obtain ⟨fuel, hfuel⟩ := Nat.exists_eq_succ_of_ne_zero fuelled
  have hsignal : ∀ s : Signal, x.outcome = .value (.signal s) x.machine →
      body.outcome = .value (.signal s) x.machine :=
    fun s => (Leads.signal hstart (hp.tail hask) (fun _ => .inl) hlead).2
  cases j with
  | exit =>
    have hend : x.outcome = .value (.signal .exitLoop) x.machine := by
      rw [outcome, hfuel, hj]
      rfl
    exact hask.leaves hplaced.fits hplaced.sound same (hsignal _ hend) looping rfl
  | skip =>
    have hend : x.outcome = .value (.signal .continueLoop) x.machine := by
      rw [outcome, hfuel, hj]
      rfl
    exact hask.goes_on hplaced.fits hplaced.sound same (hsignal _ hend) looping

theorem Placed.returned (hstart : start.Placed .top start) (hx : start.Placed place x) {v : Value}
    {m : Machine} (h : x.outcome = .value (.signal (.returned v)) m) :
    ∃ p body held c args m₀, start.Visits p ∧ p.Asks body ∧ p.Calls body held c args m₀ ∧
      body.Leads (fun n => n.passesOn || n.isLoop) x ∧
      c.enter (eval body.fuel) (p.stack.hold held) args m₀ = .value v m := by
  obtain ⟨p, body, held, c, args, m₀, hp, hask, hcall, hlead⟩ :=
    hx.call (outcome_fits hx.fits hx.sound h).1
  refine ⟨p, body, held, c, args, m₀, hp, hask, hcall, hlead, ?_⟩
  have hbody : body.outcome = .value (.signal (.returned v)) m := by
    refine (Leads.signal hstart (hp.tail hask) (fun n hn => ?_) hlead).2 h
    rcases Bool.or_eq_true_iff.1 hn with passing | looping
    · exact .inl passing
    · exact .inr ⟨looping, rfl⟩
  rw [hcall.enter_eq, hbody]
  rfl

theorem Placed.orderly (hstart : start.Placed .top start) (hx : start.Placed place x) :
    start.Orderly x where
  executed s m := not_signal_of_top hstart.fits hstart.sound
  statement y s m hprogram hask same hy := by
    rcases (hask.signals hx.fits hx.sound same hy).2 with passing | looping
    · simp [Node.passesOn, hprogram] at passing
    · simp [Node.isLoop, hprogram] at looping
  body y s m hask hstack hy := by
    rcases hask.cases hx.fits hx.sound with ⟨same | ⟨-, he⟩, -, sound⟩ | ⟨held, c, args, m₀, hcall⟩
    · exact absurd same hstack
    · exact absurd hy (not_signal_of_top (.expression he) sound)
    · exact hcall.returned hy
  loop s m looping h := hx.loop_returned looping h
  operand y s m hask same hop hy := by
    rcases hask.cases hx.fits hx.sound with ⟨-, -, sound⟩ | ⟨held, c, args, m₀, hcall⟩
    · exact absurd hy (not_signal_of_top (.expression (hx.fits.operand hop)) sound)
    · exact absurd same hcall.frames_ne
  received y s m hask hy := hx.received hask hy
  ignored y o hfuel hask := (asks_or_ignores hfuel).resolve_left hask o
  jump j hj fuelled := Placed.jump hstart hx hj fuelled
  returned v m _ h := Placed.returned hstart hx h

end Moment

/-! ### Programs of source text -/

theorem Machine.Executed.sound {limit : Nat} {units : List Node} {m : Machine}
    (fits : ∀ n ∈ units, n.Fits .top) (h : m.Executed limit units) : m.Sound := by
  induction h with
  | fresh world disk input => exact sound_fresh world disk input
  | @value fuel n f m m' _ hn hrun ih =>
    have hsafe := eval_safe fuel (fits n hn) (.bottom limit) m ih
    rw [hrun] at hsafe
    exact hsafe.1
  | @failure fuel n e m m' _ hn hrun ih =>
    have hsafe := eval_safe fuel (fits n hn) (.bottom limit) m ih
    rw [hrun] at hsafe
    exact hsafe.1

theorem Moment.Starts.placed {tree : Node} {limit : Nat} {start : Moment}
    (fits : ∀ n ∈ tree :: tree.children, n.Fits .top) (h : start.Starts tree limit) :
    start.Placed .top start :=
  .top .refl (fits _ h.unit) (h.machine.sound fits)

/-- Signals are in order at every moment of every run of a program. And every jump of its text
stands in a loop of the kind that it names, with no other loop and no function between them. -/
theorem signals_in_order {catalog : Catalog} {pieces : List String} {tree : Node}
    (read : Reader.program? catalog pieces = some tree) :
    (∀ limit (start x : Moment), start.Starts tree limit → start.Visits x → start.Orderly x) ∧
    ∃ placements, Reader.placements? catalog 1 pieces = some placements ∧
      Draft.read? placements = some tree ∧
      ∀ before line j kind after, placements = before ++ (line, .jump j kind) :: after →
        ∃ around : Surroundings, around.loop? = some kind ∧ tree = around.tree j.node ∧
          ∀ n, Draft.read? (before ++ (line, .simple n) :: after) = some (around.tree n) := by
  constructor
  · intro limit start x hstart hx
    obtain ⟨statements, rfl, fits⟩ := Reader.program?_fits read
    have hplaced := hstart.placed (List.forall_mem_cons.2 ⟨.program fits, fits⟩)
    obtain ⟨place, hplace⟩ := hx.placed hplaced
    exact hplaced.orderly hplace
  · rw [Reader.program?_eq] at read
    obtain ⟨placements, hplacements, htree⟩ := Option.bind_eq_some_iff.1 read
    refine ⟨placements, hplacements, htree, ?_⟩
    rintro before line j kind after rfl
    exact Draft.jump_surroundings htree

/-- A loop that is left in its first turn: the exit stands in a loop of its kind, it is visited,
and the loop ends there. -/
theorem signals_in_order_exit :
    ∃ (tree : Node) (start x : Moment) (around : Surroundings),
      Reader.program? [] ["DO\nEXIT DO\nLOOP"] = some tree ∧
      start.Starts tree 256 ∧ start.Visits x ∧ x.node = Jump.exit.node ∧ start.Orderly x ∧
      around.loop? = some .doLoop ∧ tree = around.tree Jump.exit.node := by
  let again : Node := .literal (.bool true)
  let loop : Node := .construct .doLoop [again] [Jump.exit.node]
  let m : Machine := .fresh .still .empty (.ofOctets [])
  let start : Moment := ⟨3, .bottom 256, loop, m⟩
  let body : Moment := ⟨2, .bottom 256, .block [Jump.exit.node], m⟩
  let x : Moment := ⟨1, .bottom 256, Jump.exit.node, m⟩
  have read : Reader.program? [] ["DO\nEXIT DO\nLOOP"] = some (.program [loop]) := by
    with_unfolding_all rfl
  have said : Reader.placements? [] 1 ["DO\nEXIT DO\nLOOP"] =
      some ([(1, .openDo)] ++ (2, .jump .exit .doLoop) :: [(3, .loop again)]) := by
    with_unfolding_all rfl
  have starts : start.Starts (.program [loop]) 256 :=
    ⟨rfl, .tail _ (.head _), .fresh .still .empty (.ofOctets [])⟩
  have toBody : start.Asks body := by
    refine ⟨rfl, fun e => ?_⟩
    show (Node.construct .doLoop _ _).evaluate _ 2 _ _ = _
    rw [Node.evaluate_doLoop, Loop.doTurns, Run.bind_apply, answering_self]
  have toExit : body.Asks x := by
    refine ⟨rfl, fun e => ?_⟩
    show Statements.block _ _ [Jump.exit.node] _ = _
    rw [Statements.block, Run.bind_apply, answering_self]
  have visits : start.Visits x := (Relation.ReflTransGen.single toBody).tail toExit
  obtain ⟨orderly, placements, hplacements, -, jumps⟩ := signals_in_order read
  have hsaid := Option.some.inj (hplacements.symm.trans said)
  obtain ⟨around, hloop, htree, -⟩ := jumps _ _ _ _ _ hsaid
  exact ⟨_, start, x, around, read, starts, visits, rfl, orderly 256 start x starts visits, hloop,
    htree⟩

end LineBasic
