import LineBasic.Machine

/-!
# Runs

A run works on a machine and ends with a value or with an error, and in both cases with the machine
as it then is. As programs need not end, runs are given fuel, and a run can end for lack of it.

* `Outcome` : the three ends of a run.
* `Run` : computations on a machine.
* `Run.fail`, `Run.read`, `Run.update`, `Run.take` : the elementary runs.
-/

namespace LineBasic

/-- The end of a run. -/
inductive Outcome (α : Type) where
  | value (a : α) (m : Machine)
  | failure (e : Error) (m : Machine)
  /-- The fuel was not enough. -/
  | exhausted

/-- A computation on a machine. -/
def Run (α : Type) := Machine → Outcome α

namespace Run

/-- Does nothing. -/
@[inline] def pure {α : Type} (a : α) : Run α := fun m => .value a m

/-- One run after another. -/
@[inline] def bind {α β : Type} (r : Run α) (f : α → Run β) : Run β := fun m =>
  match r m with
  | .value a m' => f a m'
  | .failure e m' => .failure e m'
  | .exhausted => .exhausted

instance : Monad Run where
  pure := Run.pure
  bind := Run.bind

/-- Ends with an error. -/
@[inline] def fail {α : Type} (e : Error) : Run α := fun m => .failure e m

/-- Ends with an error of running. -/
@[inline] def fault {α : Type} (f : RunFault) : Run α := fail (.run f)

/-- Ends for lack of fuel. -/
@[inline] def exhausted {α : Type} : Run α := fun _ => .exhausted

/-- Looks at the machine. -/
@[inline] def read {α : Type} (f : Machine → α) : Run α := fun m => .value (f m) m

/-- Changes the machine. -/
@[inline] def update (f : Machine → Machine) : Run Unit := fun m => .value () (f m)

/-- Changes the machine and gets something from it. -/
@[inline] def take {α : Type} (f : Machine → α × Machine) : Run α := fun m =>
  match f m with
  | (a, m') => .value a m'

/-- Something that can fail without touching the machine. -/
@[inline] def ofExcept {α : Type} : Except Error α → Run α
  | .ok a => pure a
  | .error e => fail e

theorem pure_apply {α : Type} (a : α) (m : Machine) : (Pure.pure a : Run α) m = .value a m := rfl

theorem bind_apply {α β : Type} (r : Run α) (f : α → Run β) (m : Machine) :
    (r >>= f) m = match r m with
      | .value a m' => f a m'
      | .failure e m' => .failure e m'
      | .exhausted => .exhausted := rfl

end Run
end LineBasic
