import LineBasic.Proofs.Operators

/-!
# Bodies of functions

A call goes on with the body that a function was defined with, wherever the function was kept since:
under a name, in an array, as an argument. What the bodies have in common when functions are
defined, they have in common when functions are called.

* `Value.BodyIn` : a function of the program has a body with a property.
* `Bodies` : a region and what is asked of bodies; `Bodies.domain` asks this of
  values, and nothing else.
* `Machine.obeys_bodies` : a machine before its first program is in every such domain.
-/

namespace LineBasic

/-- The body of a function of the program has the property. Nothing is asked of other values. -/
def Value.BodyIn (S : Node → Prop) : Value → Prop
  | .closure c => S c.body
  | _ => True

section

variable {S : Node → Prop} {v : Value}

theorem Value.bodyIn_of_ne_closure (h : ∀ c, v ≠ .closure c) : v.BodyIn S := by
  cases v with
  | closure c => exact absurd rfl (h c)
  | _ => trivial

theorem Value.bodyIn_of_isPlain (h : v.IsPlain) : v.BodyIn S := by
  refine bodyIn_of_ne_closure fun c hc => ?_
  rw [hc] at h
  exact h

end

/-- A region, and what the bodies of the functions that it defines have in common. -/
structure Bodies extends Region where
  body : Node → Prop
  defined : ∀ {n b}, rule n → n.body? = some b → body b

/-- The domain of a region in which functions have such bodies. -/
def Bodies.domain (B : Bodies) : Domain :=
  { B.toRegion with
    chain := fun _ => True
    value := Value.BodyIn B.body
    scopes := Scopes.Hold (Value.BodyIn B.body)
    plain := Value.bodyIn_of_isPlain
    top := trivial
    found := fun _ _ _ hs hv => hs.found hv
    assigned := fun _ _ _ hs hv => hs.assign hv _ _
    declared := fun _ _ _ hs hv => hs.define hv _ _
    counted := fun _ _ _ hs hv => hs.define hv _ _
    swapped := fun _ _ _ _ hs hv => hs.define hv _ _
    closed := fun {_ body _ name params serial c _} h _ hbody _ hs =>
      hs.define (v := .closure ⟨serial, name, params, body, c⟩) (B.defined h hbody) _ name
    entered := fun _ hargs hs => ⟨hs.push _ hargs, trivial⟩
    installed := fun {_ b serial _} _ hs => hs.define (v := .builtin b serial) trivial _ b.name }

/-- Before the first program there are no functions of a program. -/
theorem Machine.obeys_bodies (B : Bodies) (world : World) (disk : Disk) (input : Input) :
    (fresh world disk input).Obeys B.domain.guard :=
  ⟨hold_fresh (fun _ hv => Value.bodyIn_of_ne_closure hv) world disk input, by simp [fresh]⟩

end LineBasic
