import LineBasic.Evaluation
import LineBasic.Proofs.WellFormed

/-!
# Runs that keep what a machine holds in order

A `Guard` says which values a machine may hold, how its scopes may be, with which errors a run
may end, and whether it may lack fuel. Runs that keep to a guard are closed under the
elementary runs and under `bind`.

Some errors are faults of the tree and not of the program: a construct without its parts, an operand
that is no name, an operator with the wrong number of operands. `Error.isInternal` collects them. A
guard may rule them out, but no others.

* `Checked` : a result that is no internal error.
* `Guard` : values, scopes and errors; `Machine.Obeys` : a machine that keeps to a guard.
* `Run.Upholds` : a run that leads from machines that obey to machines that obey.
-/

namespace LineBasic

/-! ### Internal errors -/

/-- The faults that only a tree of the wrong shape can lead to. -/
def RunFault.isInternal : RunFault → Bool
  | malformed _ => true
  | noBody _ => true
  | notAName _ => true
  | notBinary _ => true
  | _ => false

namespace Error

/-- The errors that only a tree of the wrong shape can lead to. -/
def isInternal : Error → Bool
  | run fault => fault.isInternal
  | argumentCount name _ _ => (Operator.ofName? name).isSome
  | crash _ _ => true
  | _ => false

theorem isInternal_argumentCount {name : String} (h : Text.isWord name = true)
    (expected got : Nat) :
    isInternal (argumentCount name expected got) = false := by
  simp [isInternal, Operator.ofName?_of_isWord h]

/-- A crash is internal. -/
theorem isCrash_of_isInternal {e : Error} (h : e.isInternal = false) : e.isCrash = false := by
  cases e with
  | crash index count => cases h
  | _ => rfl

end Error

/-! ### Results that can be errors -/

/-- A value with a property, or an error that is not internal. -/
def Checked {α : Type} (P : α → Prop) : Except Error α → Prop
  | .ok a => P a
  | .error e => e.isInternal = false

namespace Checked

variable {α β : Type} {P P' : α → Prop} {Q : β → Prop}

theorem bind {x : Except Error α} {f : α → Except Error β} (hx : Checked P x)
    (hf : ∀ a, P a → Checked Q (f a)) : Checked Q (x >>= f) := by
  cases x with
  | ok a => exact hf a hx
  | error e => exact hx

theorem mapError {φ : Type} {x : Except φ α} {f : φ → Error} (hx : ∀ a, P a)
    (hf : ∀ e, (f e).isInternal = false) : Checked P (x.mapError f) := by
  cases x with
  | ok a => exact hx a
  | error e => exact hf e

theorem mono {x : Except Error α} (hx : Checked P x) (h : ∀ a, P a → P' a) : Checked P' x := by
  cases x with
  | ok a => exact h a hx
  | error e => exact hx

end Checked

/-! ### Guards -/

/-- No function: neither one of the program nor a built-in. -/
def Value.IsPlain : Value → Prop
  | .builtin _ _ => False
  | .closure _ => False
  | _ => True

@[simp] theorem Value.isPlain_ofLiteral (l : Literal) : (Value.ofLiteral l).IsPlain := by
  cases l <;> trivial

/-- What a machine may hold, and how a run may fail. -/
structure Guard where
  value : Value → Prop
  scopes : Scopes → Prop
  error : Error → Prop
  /-- The fuel need not be enough. -/
  lack : Prop := True
  plain : ∀ {v : Value}, v.IsPlain → value v
  external : ∀ {e : Error}, e.isInternal = false → error e

variable {G : Guard}

/-- All values of a sequence keep to the guard. -/
def Guard.sequence (G : Guard) (items : Array Value) : Prop := ∀ v ∈ items, G.value v

/-- All that a machine holds keeps to the guard. -/
structure Machine.Obeys (G : Guard) (m : Machine) : Prop where
  scopes : G.scopes m.scopes
  heap : ∀ items ∈ m.heap, G.sequence items

namespace Machine.Obeys

variable {m m' : Machine}

/-- Only the scopes and the sequences count. -/
theorem of_eq (h : m.Obeys G) (hs : m'.scopes = m.scopes) (hh : m'.heap = m.heap) : m'.Obeys G :=
  ⟨hs ▸ h.scopes, hh ▸ h.heap⟩

/-- The machine with other scopes. -/
theorem withScopes (h : m.Obeys G) {s : Scopes} (hs : G.scopes s) :
    Machine.Obeys G { m with scopes := s } :=
  ⟨hs, h.heap⟩

theorem allocate (h : m.Obeys G) {items : Array Value} (hi : G.sequence items) :
    (m.allocate items).2.Obeys G := by
  refine ⟨h.scopes, fun s hs => ?_⟩
  rcases Array.mem_push.1 hs with hs | rfl
  · exact h.heap s hs
  · exact hi

theorem edit (h : m.Obeys G) (id : SequenceId) {f : Array Value → Array Value}
    (hf : ∀ items, G.sequence items → G.sequence (f items)) : (m.edit id f).Obeys G := by
  refine ⟨h.scopes, fun s hs => ?_⟩
  obtain ⟨i, hi, rfl⟩ := Array.mem_iff_getElem.1 hs
  simp only [Machine.edit, Array.getElem_modify, Array.size_modify] at hi ⊢
  split
  · exact hf _ (h.heap _ (Array.getElem_mem hi))
  · exact h.heap _ (Array.getElem_mem hi)

theorem sequence (h : m.Obeys G) (id : SequenceId) : G.sequence (m.heap.sequence id) := by
  unfold Heap.sequence Array.getD
  split
  · exact h.heap _ (Array.getElem_mem _)
  · simp [Guard.sequence]

end Machine.Obeys

namespace Guard

theorem sequence_push {items : Array Value} {v : Value} (hi : G.sequence items) (hv : G.value v) :
    G.sequence (items.push v) := by
  intro w hw
  rcases Array.mem_push.1 hw with hw | rfl
  · exact hi w hw
  · exact hv

theorem value_getD {items : Array Value} (h : G.sequence items) (i : Nat) :
    G.value (items.getD i .nothing) := by
  unfold Array.getD
  split
  · exact h _ (Array.getElem_mem _)
  · exact G.plain trivial

end Guard

/-! ### Runs -/

theorem Run.pure_bind {α β : Type} (a : α) (f : α → Run β) :
    (Pure.pure a >>= f) = f a := rfl

/-- The end of a run that keeps to the guard. -/
def Outcome.Upholds {α : Type} (G : Guard) (P : α → Prop) : Outcome α → Prop
  | .value a m => m.Obeys G ∧ P a
  | .failure e m => m.Obeys G ∧ G.error e
  | .exhausted => G.lack

namespace Run

variable {α β : Type} {P : α → Prop} {Q : β → Prop}

/-- From a machine that obeys, the run leads to a machine that obeys, with a result that has the
property or with an error that is allowed. -/
def Upholds (G : Guard) (P : α → Prop) (r : Run α) : Prop := ∀ m, m.Obeys G → (r m).Upholds G P

namespace Upholds

theorem pure {a : α} (h : P a) : Upholds G P (Pure.pure a) := fun _ hm => ⟨hm, h⟩

theorem bind {r : Run α} {f : α → Run β} (hr : Upholds G P r) (hf : ∀ a, P a → Upholds G Q (f a)) :
    Upholds G Q (r >>= f) := by
  intro m hm
  have hr := hr m hm
  rw [Run.bind_apply]
  split
  · next a m' h =>
    rw [h] at hr
    exact hf a hr.2 m' hr.1
  · next e m' h =>
    rw [h] at hr
    exact hr
  · next h =>
    rw [h] at hr
    exact hr

/-- A run whose result does not matter, and another one. -/
theorem andThen {r : Run α} {f : α → Run β} (hr : Upholds G (fun _ => True) r)
    (hf : ∀ a, Upholds G Q (f a)) : Upholds G Q (r >>= f) := bind hr fun a _ => hf a

theorem mono {P' : α → Prop} {r : Run α} (hr : Upholds G P r) (h : ∀ a, P a → P' a) :
    Upholds G P' r := by
  intro m hm
  have hr := hr m hm
  cases hrm : r m with
  | value a m' =>
    rw [hrm] at hr
    exact ⟨hr.1, h a hr.2⟩
  | failure e m' =>
    rw [hrm] at hr
    exact hr
  | exhausted =>
    rw [hrm] at hr
    exact hr

theorem fail {e : Error} (h : G.error e) : Upholds G P (Run.fail e) := fun _ hm => ⟨hm, h⟩

/-- An error that no guard rules out. -/
theorem failExternal {e : Error} (h : e.isInternal = false) : Upholds G P (Run.fail e) :=
  fail (G.external h)

theorem exhausted (h : G.lack) : Upholds G P Run.exhausted := fun _ _ => h

theorem read {f : Machine → α} (h : ∀ m, m.Obeys G → P (f m)) : Upholds G P (Run.read f) :=
  fun m hm => ⟨hm, h m hm⟩

theorem look {f : Machine → α} : Upholds G (fun _ => True) (Run.read f) := read fun _ _ => trivial

theorem update {f : Machine → Machine} (h : ∀ m, m.Obeys G → (f m).Obeys G) :
    Upholds G (fun _ => True) (Run.update f) := fun m hm => ⟨h m hm, trivial⟩

theorem take {f : Machine → α × Machine} (h : ∀ m, m.Obeys G → (f m).2.Obeys G ∧ P (f m).1) :
    Upholds G P (Run.take f) := fun m hm => h m hm

theorem ofExcept {x : Except Error α} (h : Checked P x) : Upholds G P (Run.ofExcept x) := by
  cases x with
  | ok a => exact pure h
  | error e => exact failExternal h

/-- Something that cannot give a function. -/
theorem ofPlain {x : Except Error Value} (h : Checked Value.IsPlain x) :
    Upholds G G.value (Run.ofExcept x) :=
  ofExcept (h.mono fun _ => G.plain)

theorem onHeap {f : Heap → Except Error Value} (h : ∀ heap, Checked Value.IsPlain (f heap)) :
    Upholds G G.value (Run.onHeap f) :=
  andThen look fun heap => ofPlain (h heap)

/-- Something that does not change the scopes and the sequences. -/
theorem updateRest {f : Machine → Machine} (hs : ∀ m, (f m).scopes = m.scopes)
    (hh : ∀ m, (f m).heap = m.heap) : Upholds G (fun _ => True) (Run.update f) :=
  update fun m hm => hm.of_eq (hs m) (hh m)

theorem updateScopes {f : Scopes → Scopes} (h : ∀ s, G.scopes s → G.scopes (f s)) :
    Upholds G (fun _ => True) (Run.updateScopes f) :=
  update fun _ hm => hm.withScopes (h _ hm.scopes)

theorem sequence (id : SequenceId) :
    Upholds G G.sequence (Run.read fun m => m.heap.sequence id) :=
  read fun _ hm => hm.sequence id

theorem allocate {items : Array Value} (h : G.sequence items) :
    Upholds G (fun _ => True) (Run.take fun m => m.allocate items) :=
  take fun _ hm => ⟨hm.allocate h, trivial⟩

theorem print (s : String) : Upholds G (fun _ => True) (Run.print s) :=
  updateRest (fun _ => rfl) fun _ => rfl

theorem display (v : Value) : Upholds G (fun _ => True) (Run.display v) := look

end Upholds
end Run

end LineBasic
