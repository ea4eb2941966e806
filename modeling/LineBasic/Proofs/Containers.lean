import Mathlib.Logic.Basic
import LineBasic.Evaluation

/-!
# Queues, stacks and arrays as ideal sequences

Queues, stacks and arrays are stored alike, and the functions that work on them find out at run
time what they have been given. Beside this store stands an ideal one, which knows the kind of
each container and holds its content as a list. What an act does to the ideal store is told by the
ends of the lists alone.

* `Sequences.Verb`, `Sequences.Act` : the functions that work on containers, and the acts of a
  program: making an array, or calling one of the functions.
* `Sequences.performAll?` : what acts do to a machine, one after another.
* `Sequences.Store.Step`, `Sequences.Store.Steps` : what they do to an ideal store.
* `Sequences.Store.Describes` : an ideal store has what is in the store of a machine.
* `Sequences.Act.View` : all that an act can be.
* `Sequences.Act.follows`, `Sequences.performAll?_follows` : acts do to a machine what
  they do to an ideal store.
* `Sequences.Act.eq_of_failure` : an act that fails changes nothing.
* `Sequences.Store.Step.change` : what one act can do to one container.
* `Sequences.Store.Laws` : queues are first in, first out; nothing is lost or made twice; what is
  added last at one end is taken first.
* `containers_are_ideal_sequences` : all this for every sequence of acts on a machine.
-/

namespace LineBasic
namespace Sequences

/-! ### Acts -/

/-- The kinds of containers. -/
inductive Kind where
  | queue | stack | array
  deriving DecidableEq, Repr

/-- A reference to a container of a kind. -/
def Kind.value : Kind → SequenceId → Value
  | queue => .queue
  | stack => .stack
  | array => .array

/-- The functions that make containers or work on them. -/
inductive Verb where
  | queue | stack | push | pop | pushFront | popFront | front | back
  deriving DecidableEq, Repr

/-- What a function does: it makes a container of a kind, adds an element to one, takes one from it,
or only looks at one. -/
inductive Effect where
  | make (k : Kind) | add | take | look
  deriving DecidableEq, Repr

/-- The number of arguments. -/
def Effect.arity : Effect → Nat
  | make _ => 0
  | add => 2
  | take => 1
  | look => 1

namespace Verb

/-- The built-in that a function is. -/
def builtin : Verb → Builtin
  | queue => .queue
  | stack => .stack
  | push => .push
  | pop => .pop
  | pushFront => .pushFront
  | popFront => .popFront
  | front => .front
  | back => .back

/-- What a function does. -/
def effect : Verb → Effect
  | queue => .make .queue
  | stack => .make .stack
  | push => .add
  | pop => .take
  | pushFront => .add
  | popFront => .take
  | front => .look
  | back => .look

/-- The end that a function works at in a container of a kind, if it works on that kind. -/
def end? : Verb → Kind → Option End
  | push, _ => some .back
  | pop, .queue => some .front
  | pop, _ => some .back
  | pushFront, .array => some .front
  | popFront, .array => some .front
  | front, .array => some .front
  | back, .array => some .back
  | _, _ => none

/-- What a function asks for. -/
def wanted : Verb → String
  | push => "a queue, a stack or an array"
  | pop => "a queue, a stack or an array"
  | _ => "an array"

/-- The fault of a function that got a wrong number of arguments. -/
def countFault (verb : Verb) (args : List Value) : Error :=
  Argument.countFault verb.builtin.name verb.effect.arity args

/-- The fault of a function that got something it does not work on. -/
def kindFault (verb : Verb) (c : Value) : Error :=
  Argument.kindFault verb.builtin.name verb.wanted c

end Verb

/-- What a program does with containers: it makes an array of values, or calls a
function with values. -/
inductive Act where
  | array (items : List Value)
  | call (verb : Verb) (args : List Value)

namespace Act

/-- The values in an act. -/
def values : Act → List Value
  | array items => items
  | call _ args => args

/-- The kind of the container that an act makes. -/
def makes : Act → List Kind
  | array _ => [.array]
  | call verb [] => match verb.effect with
    | .make k => [k]
    | _ => []
  | call _ _ => []

/-- An act as a run. -/
def run : Act → Run Value
  | array items => do return .array (← Run.take fun m => m.allocate items.toArray)
  | call verb args => verb.builtin.onValues args

/-- What an act gives, and the machine after it. -/
def perform? (a : Act) (m : Machine) : Option (Except Error Value × Machine) :=
  match a.run m with
  | .value v m' => some (.ok v, m')
  | .failure e m' => some (.error e, m')
  | .exhausted => none

end Act

/-- What acts give one after another, and the machine after all of them. An act that fails does not
keep the others from being done. -/
def performAll? : List Act → Machine → Option (List (Except Error Value) × Machine)
  | [], m => some ([], m)
  | a :: as, m => do
    let (r, m) ← a.perform? m
    let (rs, m) ← performAll? as m
    return (r :: rs, m)

/-! ### The ideal store -/

/-- A list with an element added at an end. -/
def End.put : End → Value → List Value → List Value
  | front, v, l => v :: l
  | back, v, l => l ++ [v]

/-- A container and what is in it. -/
structure Container where
  kind : Kind
  items : List Value

/-- All containers, by identity. -/
abbrev Store := List Container

/-- A value that, if it refers to a container, refers to one that there is. -/
def Known (kinds : List Kind) (v : Value) : Prop :=
  ∀ k id, v = Kind.value k id → kinds[id]? = some k

/-- All acts are done with values that there are when it comes to them. -/
def Usable : List Kind → List Act → Prop
  | _, [] => True
  | kinds, a :: as => (∀ v ∈ a.values, Known kinds v) ∧ Usable (kinds ++ a.makes) as

namespace Store

/-- The kinds of the containers. -/
def kinds (S : Store) : List Kind := S.map Container.kind

/-- What an act gives and does to containers that are ideal sequences. -/
inductive Step (S : Store) : Act → Except Error Value → Store → Prop
  | array (items : List Value) :
      Step S (.array items) (.ok (.array S.length)) (S ++ [⟨.array, items⟩])
  | make {verb : Verb} {k : Kind} (heffect : verb.effect = .make k) :
    Step S (.call verb []) (.ok (k.value S.length)) (S ++ [⟨k, []⟩])
  | add {verb : Verb} {c v : Value} {k : Kind} {id : SequenceId} {e : End} {l : List Value}
      (heffect : verb.effect = .add) (hc : c = k.value id) (hend : verb.end? k = some e)
      (h : S[id]? = some ⟨k, l⟩) :
    Step S (.call verb [c, v]) (.ok v) (S.set id ⟨k, e.put v l⟩)
  | take {verb : Verb} {c v : Value} {k : Kind} {id : SequenceId} {e : End} {l : List Value}
    (heffect : verb.effect = .take) (hc : c = k.value id) (hend : verb.end? k = some e)
    (h : S[id]? = some ⟨k, e.put v l⟩) : Step S (.call verb [c]) (.ok v) (S.set id ⟨k, l⟩)
  | look {verb : Verb} {c v : Value} {k : Kind} {id : SequenceId} {e : End} {l : List Value}
    (heffect : verb.effect = .look) (hc : c = k.value id) (hend : verb.end? k = some e)
    (h : S[id]? = some ⟨k, e.put v l⟩) : Step S (.call verb [c]) (.ok v) S
  | empty {verb : Verb} {c : Value} {k : Kind} {id : SequenceId} {e : End}
      (heffect : verb.effect = .take ∨ verb.effect = .look) (hc : c = k.value id)
      (hend : verb.end? k = some e) (h : S[id]? = some ⟨k, []⟩) :
      Step S (.call verb [c]) (.error (emptyFault verb.builtin.name c)) S
  | wrongKind {verb : Verb} {c : Value} {args : List Value}
      (hcount : (c :: args).length = verb.effect.arity)
      (hc : ∀ k id, c = Kind.value k id → verb.end? k = none) :
    Step S (.call verb (c :: args)) (.error (verb.kindFault c)) S
  | wrongCount {verb : Verb} {args : List Value} (hcount : args.length ≠ verb.effect.arity) :
    Step S (.call verb args) (.error (verb.countFault args)) S

/-- What acts give and do one after another. -/
inductive Steps : Store → List Act → List (Except Error Value) → Store → Prop
  | nil (S : Store) : Steps S [] [] S
  | cons {S S' S'' : Store} {a : Act} {as : List Act} {r : Except Error Value}
      {rs : List (Except Error Value)} (step : Step S a r S') (rest : Steps S' as rs S'') :
      Steps S (a :: as) (r :: rs) S''

/-- The ideal store has what a store has, and all that is in it is known. -/
structure Describes (S : Store) (h : Heap) : Prop where
  items : h.toList.map Array.toList = S.map Container.items
  known : ∀ c ∈ S, ∀ v ∈ c.items, Known S.kinds v

end Store

/-! ### The store of a machine -/

variable {S S' : Store} {h : Heap} {m : Machine} {id other : SequenceId} {k : Kind} {e : End}
  {v c : Value} {l : List Value} {verb : Verb} {args : List Value} {a : Act} {as : List Act}
  {r : Except Error Value} {rs : List (Except Error Value)} {ks more : List Kind}

theorem Kind.value_inj {k k' : Kind} {id id' : SequenceId} (h : k.value id = k'.value id') :
    k = k' ∧ id = id' := by
  cases k <;> cases k' <;> simp_all [Kind.value]

theorem Known.append (hv : Known ks v) : Known (ks ++ more) v := by
  intro k id hk
  rw [List.getElem?_append_left (List.getElem?_eq_some_iff.1 (hv k id hk)).1]
  exact hv k id hk

/-- Whether a value is known is told by the container that it refers to. -/
instance (ks : List Kind) : ∀ v, Decidable (Known ks v)
  | .queue id => decidable_of_iff (ks[id]? = some .queue)
    ⟨fun h k _ hk => by cases k <;> cases hk; exact h, fun h => h .queue id rfl⟩
  | .stack id => decidable_of_iff (ks[id]? = some .stack)
    ⟨fun h k _ hk => by cases k <;> cases hk; exact h, fun h => h .stack id rfl⟩
  | .array id => decidable_of_iff (ks[id]? = some .array)
    ⟨fun h k _ hk => by cases k <;> cases hk; exact h, fun h => h .array id rfl⟩
  | .builtin _ _ | .closure _ | .file _ | .text _ | .int _ | .float _ | .bool _ | .nothing =>
    .isTrue fun k _ hk => by cases k <;> cases hk

instance decidableUsable : ∀ (ks : List Kind) (as : List Act), Decidable (Usable ks as)
  | _, [] => .isTrue trivial
  | ks, a :: as =>
    have := decidableUsable (ks ++ a.makes) as
    inferInstanceAs (Decidable ((∀ v ∈ a.values, Known ks v) ∧ Usable (ks ++ a.makes) as))

theorem End.put_inj {v v' : Value} {l l' : List Value} (h : e.put v l = e.put v' l') :
    v = v' ∧ l = l' := by
  cases e with
  | front => exact List.cons.inj h
  | back =>
    obtain ⟨hl, hv⟩ := List.append_inj' h rfl
    exact ⟨List.singleton_inj.1 hv, hl⟩

theorem End.mem_put {w : Value} : w ∈ e.put v l ↔ w = v ∨ w ∈ l := by
  cases e <;> simp [End.put, or_comm]

theorem split?_eq_none {items : Array Value} (hs : split? e items = none) : items.toList = [] := by
  cases e with
  | front => simpa [split?] using hs
  | back => simpa [split?] using hs

theorem split?_eq_some {items rest : Array Value} (hs : split? e items = some (v, rest)) :
    items.toList = e.put v rest.toList := by
  cases e with
  | front =>
    obtain ⟨w, hw, hp⟩ := Option.map_eq_some_iff.1 hs
    cases hp
    cases items with
    | mk list => cases list <;> simp_all [End.put]
  | back =>
    obtain ⟨w, hw, hp⟩ := Option.map_eq_some_iff.1 hs
    cases hp
    obtain ⟨rest, rfl⟩ := Array.back?_eq_some_iff.1 hw
    simp [End.put]

namespace Store

theorem kinds_getElem? (hc : S[id]? = some ⟨k, l⟩) : S.kinds[id]? = some k := by
  rw [kinds, List.getElem?_map, hc, Option.map_some]

theorem kinds_set (hc : S[id]? = some ⟨k, l⟩) (l' : List Value) :
    kinds (S.set id ⟨k, l'⟩) = S.kinds := by
  obtain ⟨hlt, hget⟩ := List.getElem?_eq_some_iff.1 (kinds_getElem? hc)
  rw [kinds, List.map_set, ← kinds]
  exact hget ▸ List.set_getElem_self hlt

theorem exists_of_known (hv : Known S.kinds c) (hc : c = k.value id) :
    ∃ l, S[id]? = some ⟨k, l⟩ := by
  obtain ⟨⟨k', l⟩, hget, rfl⟩ :=
    Option.map_eq_some_iff.1 ((List.getElem?_map ..).symm.trans (hv k id hc))
  exact ⟨l, hget⟩

namespace Describes

variable (hS : S.Describes h)
include hS

theorem size_eq : h.size = S.length := by
  simpa using congrArg List.length hS.items

theorem lt_size (hc : S[id]? = some ⟨k, l⟩) : id < h.size :=
  hS.size_eq ▸ (List.getElem?_eq_some_iff.1 hc).1

theorem toList_sequence (hc : S[id]? = some ⟨k, l⟩) : (h.sequence id).toList = l := by
  have hget : (h.toList.map Array.toList)[id]? = some l := by
    rw [hS.items, List.getElem?_map, hc, Option.map_some]
  rw [List.getElem?_map, Array.getElem?_toList] at hget
  obtain ⟨items, hitems, rfl⟩ := Option.map_eq_some_iff.1 hget
  rw [Heap.sequence, Array.getD_eq_getD_getElem?, hitems, Option.getD_some]

/-- What is in a container is known. -/
theorem known_items (hc : S[id]? = some ⟨k, l⟩) : ∀ v ∈ l, Known S.kinds v :=
  hS.known _ (List.mem_of_getElem? hc)

/-- A container that is made is the next one. -/
theorem push {items : Array Value} (hitems : ∀ v ∈ items.toList, Known S.kinds v) :
    Describes (S ++ [⟨k, items.toList⟩]) (h.push items) := by
  refine ⟨by simp [hS.items], fun c hc v hv => ?_⟩
  rw [kinds, List.map_append]
  refine Known.append ?_
  rcases List.mem_append.1 hc with hc | hc
  · exact hS.known c hc v hv
  · rw [List.mem_singleton.1 hc] at hv
    exact hitems v hv

/-- One container gets another content. -/
theorem set {f : Array Value → Array Value} {l' : List Value} (hc : S[id]? = some ⟨k, l⟩)
    (hf : (f (h.sequence id)).toList = l') (hknown : ∀ v ∈ l', Known S.kinds v) :
    Describes (S.set id ⟨k, l'⟩) (h.modify id f) := by
  refine ⟨?_, fun c hc' v hv => ?_⟩
  · have hget : h[id]? = some (h.sequence id) := by
      simp [Heap.sequence, Array.getD_eq_getD_getElem?, Array.getElem?_eq_getElem (hS.lt_size hc)]
    refine List.ext_getElem? fun i => ?_
    have hi := congrArg (·[i]?) hS.items
    simp only [List.getElem?_map, Array.getElem?_toList] at hi
    simp only [List.map_set, List.getElem?_map, List.getElem?_set, Array.getElem?_toList,
      Array.getElem?_modify]
    split
    · next heq => subst heq; simp [hget, hf, (List.getElem?_eq_some_iff.1 hc).1]
    · exact hi
  · rw [kinds_set hc]
    rcases List.mem_or_eq_of_mem_set hc' with hc' | rfl
    · exact hS.known c hc' v hv
    · exact hknown v hv

end Describes
end Store

/-! ### Acts on a machine -/

theorem takeFrom_apply (name : String) (c : Value) (id : SequenceId) (e : End) (m : Machine) :
    takeFrom name c id e m = match split? e (m.heap.sequence id) with
      | some (v, rest) => .value v (m.edit id fun _ => rest)
      | none => .failure (emptyFault name c) m := by
  simp only [takeFrom, Run.bind_apply, Run.read]
  cases split? e (m.heap.sequence id) <;> rfl

theorem peek_apply (name : String) (id : SequenceId) (e : End) (m : Machine) :
    peek name e [.array id] m = match split? e (m.heap.sequence id) with
      | some (v, _) => .value v m
      | none => .failure (emptyFault name (.array id)) m := by
  simp only [peek, arrayOf, Run.ofExcept, Run.bind_apply, Run.pure, Run.read]
  cases split? e (m.heap.sequence id) <;> rfl

namespace Act

/-- A function got a wrong number of arguments. -/
theorem run_wrongCount (hcount : args.length ≠ verb.effect.arity) (m : Machine) :
    (call verb args).run m = .failure (verb.countFault args) m := by
  cases verb <;> rcases args with _ | ⟨a, _ | ⟨b, _ | ⟨c, args⟩⟩⟩ <;>
    first | rfl | exact absurd rfl hcount

/-- A function got something it does not work on. -/
theorem run_wrongKind (hcount : (c :: args).length = verb.effect.arity)
    (hc : ∀ k id, c = Kind.value k id → verb.end? k = none) (m : Machine) :
    (call verb (c :: args)).run m = .failure (verb.kindFault c) m := by
  cases verb <;> rcases args with _ | ⟨b, _ | ⟨d, args⟩⟩ <;> try cases hcount
  all_goals
    cases c with
    | queue id => first | rfl | cases hc .queue id rfl
    | stack id => first | rfl | cases hc .stack id rfl
    | array id => first | rfl | cases hc .array id rfl
    | _ => rfl

/-- A function that makes a container. -/
theorem run_make (heffect : verb.effect = .make k) (m : Machine) :
    (call verb []).run m = .value (k.value m.heap.size) { m with heap := m.heap.push #[] } := by
  cases verb <;> cases heffect <;> rfl

/-- A function that adds an element changes one sequence. -/
theorem run_add (heffect : verb.effect = .add) (hend : verb.end? k = some e) (id : SequenceId)
    (v : Value) :
    ∃ f : Array Value → Array Value, (∀ items, (f items).toList = e.put v items.toList) ∧
      ∀ m, (call verb [k.value id, v]).run m = .value v (m.edit id f) := by
  cases verb <;> cases heffect
  · cases hend
    exact ⟨fun items => items.push v, fun items => Array.toList_push, fun m => by cases k <;> rfl⟩
  · cases k <;> cases hend
    exact ⟨fun items => #[v] ++ items, fun items => by simp [End.put], fun m => rfl⟩

/-- A function that takes an element from one sequence. -/
theorem run_take (heffect : verb.effect = .take) (hend : verb.end? k = some e) (id : SequenceId)
    (m : Machine) :
    (call verb [k.value id]).run m = match split? e (m.heap.sequence id) with
      | some (v, rest) => .value v (m.edit id fun _ => rest)
      | none => .failure (emptyFault verb.builtin.name (k.value id)) m := by
  cases verb <;> cases heffect <;> cases k <;> cases hend <;> exact takeFrom_apply _ _ id _ m

/-- A function that looks at one sequence. -/
theorem run_look (heffect : verb.effect = .look) (hend : verb.end? k = some e) (id : SequenceId)
    (m : Machine) :
    (call verb [k.value id]).run m = match split? e (m.heap.sequence id) with
      | some (v, _) => .value v m
      | none => .failure (emptyFault verb.builtin.name (k.value id)) m := by
  cases verb <;> cases heffect <;> cases k <;> cases hend <;> exact peek_apply _ id _ m

theorem makes_cons : (call verb (c :: args)).makes = [] := rfl

theorem makes_nil (heffect : verb.effect = .make k) : (call verb []).makes = [k] := by
  rw [makes, heffect]

theorem makes_wrongCount (hcount : args.length ≠ verb.effect.arity) :
    (call verb args).makes = [] := by
  cases args with
  | nil => cases verb <;> first | rfl | exact absurd rfl hcount
  | cons c args => rfl

theorem perform?_value {m' : Machine} (hrun : a.run m = .value v m') :
    a.perform? m = some (.ok v, m') := by
  rw [perform?, hrun]

theorem perform?_failure {m' : Machine} {e : Error} (hrun : a.run m = .failure e m') :
    a.perform? m = some (.error e, m') := by
  rw [perform?, hrun]

/-- What an act does to the machine is told by the ideal store that describes it, and
described by it again. -/
def Follows (S : Store) (a : Act) (m : Machine) : Prop :=
  ∃ r heap S', a.perform? m = some (r, { m with heap := heap }) ∧ S.Step a r S' ∧
    S'.Describes heap ∧
    S'.kinds = S.kinds ++ a.makes ∧ ∀ v, r = .ok v → Known S'.kinds v

/-- An act that fails leaves both stores as they are. -/
theorem follows_of_failure {e : Error} (hS : S.Describes m.heap) (hrun : a.run m = .failure e m)
    (hstep : S.Step a (.error e) S) (hmakes : a.makes = []) : Follows S a m :=
  ⟨.error e, m.heap, S, perform?_failure hrun, hstep, hS, by rw [hmakes, List.append_nil],
    fun _ h => nomatch h⟩

/-- A new container comes after all others. -/
theorem follows_of_made {items : Array Value} (hS : S.Describes m.heap)
    (hitems : ∀ v ∈ items.toList, Known S.kinds v)
    (hrun : a.run m = .value (k.value m.heap.size) { m with heap := m.heap.push items })
    (hstep : S.Step a (.ok (k.value S.length)) (S ++ [⟨k, items.toList⟩]))
    (hmakes : a.makes = [k]) :
    Follows S a m := by
  have hkinds : Store.kinds (S ++ [⟨k, items.toList⟩]) = S.kinds ++ [k] := List.map_append
  refine ⟨_, _, _, perform?_value hrun, hS.size_eq ▸ hstep, hS.push hitems, hmakes ▸ hkinds, ?_⟩
  intro v hv k' id hk
  obtain ⟨rfl, rfl⟩ := Kind.value_inj ((Except.ok.inj hv).trans hk)
  rw [hkinds, hS.size_eq, List.getElem?_append_right (by simp [Store.kinds])]
  simp [Store.kinds]

/-- A function that gives a known value makes no container. -/
theorem follows_of_kept {heap : Heap}
    (hrun : (call verb (c :: args)).run m = .value v { m with heap := heap })
    (hstep : S.Step (call verb (c :: args)) (.ok v) S') (hS' : S'.Describes heap)
    (hkinds : S'.kinds = S.kinds) (hv : Known S.kinds v) : Follows S (call verb (c :: args)) m := by
  refine ⟨.ok v, heap, S', perform?_value hrun, hstep,
    hS', by rw [hkinds, makes_cons, List.append_nil], ?_⟩
  intro w hw
  rw [hkinds, ← Except.ok.inj hw]
  exact hv

/-- An element is added at an end. -/
theorem follows_add (hS : S.Describes m.heap) (heffect : verb.effect = .add)
    (hend : verb.end? k = some e) (hc : S[id]? = some ⟨k, l⟩) (hv : Known S.kinds v) :
    Follows S (call verb [k.value id, v]) m := by
  obtain ⟨f, hf, hrun⟩ := run_add heffect hend id v
  have hitems : (f (m.heap.sequence id)).toList = e.put v l := by rw [hf, hS.toList_sequence hc]
  have hknown : ∀ w ∈ e.put v l, Known S.kinds w := by
    intro w hw
    rcases End.mem_put.1 hw with rfl | hw
    · exact hv
    · exact hS.known_items hc w hw
  exact follows_of_kept (hrun m) (.add heffect rfl hend hc) (hS.set hc hitems hknown)
    (Store.kinds_set hc _) hv

/-- The element at an end is taken, if there is one. -/
theorem follows_take (hS : S.Describes m.heap) (heffect : verb.effect = .take)
    (hend : verb.end? k = some e) (hc : S[id]? = some ⟨k, l⟩) :
    Follows S (call verb [k.value id]) m := by
  have hrun := run_take heffect hend id m
  have hl := hS.toList_sequence hc
  cases hsplit : split? e (m.heap.sequence id) with
  | none =>
    obtain rfl : [] = l := (split?_eq_none hsplit).symm.trans hl
    rw [hsplit] at hrun
    exact follows_of_failure hS hrun (.empty (.inl heffect) rfl hend hc) rfl
  | some p =>
    obtain ⟨v, rest⟩ := p
    obtain rfl : e.put v rest.toList = l := (split?_eq_some hsplit).symm.trans hl
    have hknown := hS.known_items hc
    rw [hsplit] at hrun
    exact follows_of_kept hrun (.take heffect rfl hend hc)
      (hS.set hc rfl fun w hw => hknown w (End.mem_put.2 (.inr hw))) (Store.kinds_set hc _)
      (hknown v (End.mem_put.2 (.inl rfl)))

/-- The element at an end is shown, if there is one. -/
theorem follows_look (hS : S.Describes m.heap) (heffect : verb.effect = .look)
    (hend : verb.end? k = some e) (hc : S[id]? = some ⟨k, l⟩) :
    Follows S (call verb [k.value id]) m := by
  have hrun := run_look heffect hend id m
  have hl := hS.toList_sequence hc
  cases hsplit : split? e (m.heap.sequence id) with
  | none =>
    obtain rfl : [] = l := (split?_eq_none hsplit).symm.trans hl
    rw [hsplit] at hrun
    exact follows_of_failure hS hrun (.empty (.inr heffect) rfl hend hc) rfl
  | some p =>
    obtain ⟨v, rest⟩ := p
    obtain rfl : e.put v rest.toList = l := (split?_eq_some hsplit).symm.trans hl
    rw [hsplit] at hrun
    exact follows_of_kept hrun (.look heffect rfl hend hc) hS rfl
      (hS.known_items hc v (End.mem_put.2 (.inl rfl)))

/-- All that an act can be. -/
inductive View : Act → Prop
  | array (items : List Value) : View (.array items)
  | make {verb : Verb} {k : Kind} (heffect : verb.effect = .make k) : View (.call verb [])
  | add {verb : Verb} {k : Kind} {e : End} (heffect : verb.effect = .add)
      (hend : verb.end? k = some e) (id : SequenceId) (v : Value) :
      View (.call verb [k.value id, v])
  | take {verb : Verb} {k : Kind} {e : End} (heffect : verb.effect = .take)
      (hend : verb.end? k = some e) (id : SequenceId) : View (.call verb [k.value id])
  | look {verb : Verb} {k : Kind} {e : End} (heffect : verb.effect = .look)
      (hend : verb.end? k = some e) (id : SequenceId) : View (.call verb [k.value id])
  | wrongKind {verb : Verb} {c : Value} {args : List Value}
      (hcount : (c :: args).length = verb.effect.arity)
      (hc : ∀ k id, c = Kind.value k id → verb.end? k = none) : View (.call verb (c :: args))
  | wrongCount {verb : Verb} {args : List Value} (hcount : args.length ≠ verb.effect.arity) :
      View (.call verb args)

theorem view (a : Act) : a.View := by
  cases a with
  | array items => exact .array items
  | call verb args =>
    by_cases hcount : args.length = verb.effect.arity
    case neg => exact .wrongCount hcount
    cases args with
    | nil =>
      cases heffect : verb.effect with
      | make k => exact .make heffect
      | _ => rw [heffect] at hcount; cases hcount
    | cons c args =>
      by_cases hc : ∀ k id, c = Kind.value k id → verb.end? k = none
      · exact .wrongKind hcount hc
      simp only [not_forall] at hc
      obtain ⟨k, id, rfl, hne⟩ := hc
      obtain ⟨e, hend⟩ := Option.ne_none_iff_exists'.1 hne
      cases heffect : verb.effect with
      | make k => rw [heffect] at hcount; cases hcount
      | add =>
        obtain ⟨v, rfl⟩ := List.length_eq_one_iff.1 (Nat.succ.inj (heffect ▸ hcount))
        exact .add heffect hend id v
      | take =>
        obtain rfl := List.length_eq_zero_iff.1 (Nat.succ.inj (heffect ▸ hcount))
        exact .take heffect hend id
      | look =>
        obtain rfl := List.length_eq_zero_iff.1 (Nat.succ.inj (heffect ▸ hcount))
        exact .look heffect hend id

/-- Whatever an act is, it does to the machine what it does to the ideal store. -/
theorem follows (hS : S.Describes m.heap) (hvalues : ∀ v ∈ a.values, Known S.kinds v) :
    Follows S a m := by
  cases a.view with
  | array items =>
    have hrun : (Act.array items).run m =
        .value (Kind.array.value m.heap.size) { m with heap := m.heap.push items.toArray } := rfl
    exact follows_of_made hS hvalues hrun (.array items) rfl
  | make heffect =>
    exact follows_of_made hS (by simp) (run_make heffect m) (.make heffect) (makes_nil heffect)
  | add heffect hend id v =>
    obtain ⟨l, hl⟩ := Store.exists_of_known (hvalues _ (.head _)) rfl
    exact follows_add hS heffect hend hl (hvalues v (.tail _ (.head _)))
  | take heffect hend id =>
    obtain ⟨l, hl⟩ := Store.exists_of_known (hvalues _ (.head _)) rfl
    exact follows_take hS heffect hend hl
  | look heffect hend id =>
    obtain ⟨l, hl⟩ := Store.exists_of_known (hvalues _ (.head _)) rfl
    exact follows_look hS heffect hend hl
  | wrongKind hcount hc =>
    exact follows_of_failure hS (run_wrongKind hcount hc m) (.wrongKind hcount hc) rfl
  | wrongCount hcount =>
    exact follows_of_failure hS (run_wrongCount hcount m) (.wrongCount hcount)
      (makes_wrongCount hcount)

/-- An act that fails changes nothing at all, whatever its arguments refer to. -/
theorem eq_of_failure {m' : Machine} {fault : Error}
    (hfails : a.perform? m = some (.error fault, m')) : m' = m := by
  have given {v : Value} {m₁ : Machine} (hrun : a.run m = .value v m₁) : m' = m := by
    rw [perform?_value hrun] at hfails
    cases hfails
  have failed {e : Error} (hrun : a.run m = .failure e m) : m' = m := by
    rw [perform?_failure hrun] at hfails
    cases hfails
    rfl
  cases a.view with
  | array items => exact given rfl
  | make heffect => exact given (run_make heffect m)
  | add heffect hend id v => exact given ((run_add heffect hend id v).choose_spec.2 m)
  | @take verb k e heffect hend id =>
    have hrun := run_take heffect hend id m
    cases hsplit : split? e (m.heap.sequence id) <;> rw [hsplit] at hrun
    · exact failed hrun
    · exact given hrun
  | @look verb k e heffect hend id =>
    have hrun := run_look heffect hend id m
    cases hsplit : split? e (m.heap.sequence id) <;> rw [hsplit] at hrun
    · exact failed hrun
    · exact given hrun
  | wrongKind hcount hc => exact failed (run_wrongKind hcount hc m)
  | wrongCount hcount => exact failed (run_wrongCount hcount m)

end Act

/-- Acts one after another do to the machine what they do to the ideal store. -/
theorem performAll?_follows (hS : S.Describes m.heap) (husable : Usable S.kinds as) :
    ∃ rs heap S', performAll? as m = some (rs, { m with heap := heap }) ∧ S.Steps as rs S' ∧
    S'.Describes heap ∧
      S.kinds <+: S'.kinds ∧ ∀ v, .ok v ∈ rs → Known S'.kinds v := by
  induction as generalizing m S with
  | nil => exact ⟨[], m.heap, S, rfl, .nil S, hS, List.prefix_refl _, fun _ h => nomatch h⟩
  | cons a as ih =>
    obtain ⟨hvalues, hrest⟩ := husable
    obtain ⟨r, heap, S₁, hfirst, hstep, hS₁, hkinds, hr⟩ := Act.follows hS hvalues
    rw [← hkinds] at hrest
    obtain ⟨rs, heap', S', hall, hsteps, hS', ⟨more, hmore⟩, hknown⟩ :=
      ih (m := { m with heap := heap }) hS₁ hrest
    refine ⟨r :: rs, heap', S', ?_, .cons hstep hsteps, hS', ⟨a.makes ++ more, ?_⟩, fun v hv => ?_⟩
    · simp [performAll?, hfirst, hall]
    · rw [← hmore, hkinds, List.append_assoc]
    · rcases List.mem_cons.1 hv with hv | hv
      · exact hmore ▸ (hr v hv.symm).append
      · exact hknown v hv

/-! ### What acts do to one container -/

/-- The container that a value refers to. -/
def container? : Value → Option SequenceId
  | .queue id => some id
  | .stack id => some id
  | .array id => some id
  | _ => none

/-- The element that an act has added to a container or has taken from it. -/
def Act.moved? (effect : Effect) (id : SequenceId) : Act → Except Error Value → Option Value
  | .call verb (c :: _), .ok v =>
    if verb.effect = effect ∧ container? c = some id then some v else none
  | _, _ => none

/-- The elements that acts have added to a container or have taken from it, in order. -/
def moved (effect : Effect) (id : SequenceId) (as : List Act)
    (rs : List (Except Error Value)) : List Value :=
  (as.zip rs).filterMap fun p => p.1.moved? effect id p.2

/-- An act does not work on a container, or only looks at it. -/
def Act.Spares (id : SequenceId) (a : Act) : Prop :=
  ∀ verb k args, a = .call verb (Kind.value k id :: args) → verb.effect = .look

theorem moved_cons (effect : Effect) (id : SequenceId) (a : Act) (as : List Act)
    (r : Except Error Value) (rs : List (Except Error Value)) :
    moved effect id (a :: as) (r :: rs) = (a.moved? effect id r).toList ++
      moved effect id as rs := by
  rw [moved, List.zip_cons_cons, List.filterMap_cons]
  cases a.moved? effect id r <;> rfl

/-- What can happen to the content of a container of a kind when one element is added, or
one is taken, or none. -/
inductive Change (k : Kind) : Option Value → Option Value → List Value → List Value → Prop
  | none (l : List Value) : Change k none none l l
  | add {verb : Verb} {e : End} (heffect : verb.effect = .add) (hend : verb.end? k = some e)
      (v : Value) (l : List Value) : Change k (some v) none l (e.put v l)
  | take {verb : Verb} {e : End} (heffect : verb.effect = .take) (hend : verb.end? k = some e)
      (v : Value) (l : List Value) : Change k none (some v) (e.put v l) l

theorem container?_value (k : Kind) (id : SequenceId) : container? (k.value id) = some id := by
  cases k <;> rfl

theorem Act.moved?_value {effect : Effect} :
    (Act.call verb (k.value other :: args)).moved? effect id (.ok v) =
      if verb.effect = effect ∧ other = id then some v else none := by
  simp only [moved?, container?_value, Option.some_inj]

theorem Act.moved?_error {effect : Effect} {fault : Error} :
    a.moved? effect id (.error fault) = none := by
  cases a with
  | array items => rfl
  | call verb args => cases args <;> rfl

namespace Store

theorem getElem?_set_self (hc : S[id]? = some ⟨k, l⟩) (l' : List Value) :
    (S.set id ⟨k, l'⟩)[id]? = some ⟨k, l'⟩ :=
  List.getElem?_set_self (List.getElem?_eq_some_iff.1 hc).1

theorem getElem?_append (hc : S[id]? = some ⟨k, l⟩) (more : Store) :
    (S ++ more)[id]? = some ⟨k, l⟩ := by
  rw [List.getElem?_append_left (List.getElem?_eq_some_iff.1 hc).1, hc]

/-- One act adds an element to a container at the end that its function works at, takes one there,
or leaves the content as it is. -/
theorem Step.change (hstep : S.Step a r S') (hc : S[id]? = some ⟨k, l⟩) :
    ∃ l', S'[id]? = some ⟨k, l'⟩ ∧ Change k (a.moved? .add id r) (a.moved? .take id r) l l' := by
  cases hstep with
  | array items => exact ⟨l, getElem?_append hc _, .none l⟩
  | make heffect => exact ⟨l, getElem?_append hc _, .none l⟩
  | @add verb c v k' id' e l₁ heffect hc' hend hother =>
    subst hc'
    rw [Act.moved?_value, Act.moved?_value, heffect]
    by_cases hid : id' = id
    · subst hid
      obtain ⟨rfl, rfl⟩ := Container.mk.inj (Option.some.inj (hother.symm.trans hc))
      exact ⟨_, getElem?_set_self hc _, by simpa using .add heffect hend v l₁⟩
    · exact ⟨l, by rw [List.getElem?_set_ne hid, hc], by simpa [hid] using .none l⟩
  | @take verb c v k' id' e l₁ heffect hc' hend hother =>
    subst hc'
    rw [Act.moved?_value, Act.moved?_value, heffect]
    by_cases hid : id' = id
    · subst hid
      obtain ⟨rfl, rfl⟩ := Container.mk.inj (Option.some.inj (hother.symm.trans hc))
      exact ⟨_, getElem?_set_self hc _, by simpa using .take heffect hend v l₁⟩
    · exact ⟨l, by rw [List.getElem?_set_ne hid, hc], by simpa [hid] using .none l⟩
  | look heffect hc' hend hother =>
    subst hc'
    rw [Act.moved?_value, Act.moved?_value, heffect]
    exact ⟨l, hc, by simpa using .none l⟩
  | _ =>
    rw [Act.moved?_error, Act.moved?_error]
    exact ⟨l, hc, .none l⟩

/-- An act that works on other containers only, or only looks, leaves a container as it is. -/
theorem Step.spares (hstep : S.Step a r S') (ha : a.Spares id) (hc : S[id]? = some ⟨k, l⟩) :
    S'[id]? = some ⟨k, l⟩ := by
  cases hstep with
  | array items => exact getElem?_append hc _
  | make heffect => exact getElem?_append hc _
  | @add verb c v k' id' e l₁ heffect hc' hend hother =>
    have hid : id' ≠ id := by
      rintro rfl
      cases heffect.symm.trans (ha verb k' [v] (by rw [hc']))
    rw [List.getElem?_set_ne hid, hc]
  | @take verb c v k' id' e l₁ heffect hc' hend hother =>
    have hid : id' ≠ id := by
      rintro rfl
      cases heffect.symm.trans (ha verb k' [] (by rw [hc']))
    rw [List.getElem?_set_ne hid, hc]
  | _ => exact hc

/-- To a container that a function adds to, it adds. -/
theorem Step.of_add (hstep : S.Step (.call verb [k.value id, v]) r S')
    (heffect : verb.effect = .add) (hend : verb.end? k = some e) (hc : S[id]? = some ⟨k, l⟩) :
    S'[id]? = some ⟨k, e.put v l⟩ := by
  cases hstep with
  | add heffect' hc' hend' hother =>
    obtain ⟨rfl, rfl⟩ := Kind.value_inj hc'
    obtain rfl := Option.some.inj (hend'.symm.trans hend)
    obtain ⟨-, rfl⟩ := Container.mk.inj (Option.some.inj (hother.symm.trans hc))
    exact getElem?_set_self hc _
  | wrongKind hcount hc' => cases (hc' k id rfl).symm.trans hend
  | wrongCount hcount => exact absurd (by rw [heffect]; rfl) hcount

/-- From a container with an element at the end that a function takes from,
it takes this element. -/
theorem Step.of_take (hstep : S.Step (.call verb [k.value id]) r S') (heffect : verb.effect = .take)
    (hend : verb.end? k = some e) (hc : S[id]? = some ⟨k, e.put v l⟩) :
    r = .ok v ∧ S'[id]? = some ⟨k, l⟩ := by
  cases hstep with
  | take heffect' hc' hend' hother =>
    obtain ⟨rfl, rfl⟩ := Kind.value_inj hc'
    obtain rfl := Option.some.inj (hend'.symm.trans hend)
    obtain ⟨-, hput⟩ := Container.mk.inj (Option.some.inj (hother.symm.trans hc))
    obtain ⟨rfl, rfl⟩ := End.put_inj hput
    exact ⟨rfl, getElem?_set_self hc _⟩
  | look heffect' hc' hend' hother => cases heffect.symm.trans heffect'
  | empty heffect' hc' hend' hother =>
    obtain ⟨rfl, rfl⟩ := Kind.value_inj hc'
    obtain ⟨-, hput⟩ := Container.mk.inj (Option.some.inj (hother.symm.trans hc))
    cases e <;> simp [End.put] at hput
  | wrongKind hcount hc' => cases (hc' k id rfl).symm.trans hend
  | wrongCount hcount => exact absurd (by rw [heffect]; rfl) hcount

end Store

/-! ### Queues and stacks -/

/-- A queue adds at the back and takes from the front. -/
theorem Change.in_order {added taken : Option Value} {l' : List Value}
    (h : Change .queue added taken l l') :
    l ++ added.toList = taken.toList ++ l' := by
  cases h with
  | none l => simp
  | @add verb e heffect hend v l =>
    obtain rfl : e = .back := by cases verb <;> cases heffect <;> cases hend; rfl
    rfl
  | @take verb e heffect hend v l =>
    obtain rfl : e = .front := by cases verb <;> cases heffect <;> cases hend; rfl
    exact List.append_nil _

/-- Only what is added comes in, and only what is taken goes out. -/
theorem Change.kept {added taken : Option Value} {l' : List Value} (h : Change k added taken l l') :
    (l ++ added.toList).Perm (taken.toList ++ l') := by
  have hput (e : End) (v : Value) (l : List Value) : (e.put v l).Perm (v :: l) := by
    cases e with
    | front => exact .refl _
    | back => exact List.perm_append_singleton v l
  cases h with
  | none l => simp
  | add heffect hend v l => exact (List.perm_append_singleton v l).trans (hput _ v l).symm
  | take heffect hend v l => simpa using hput _ v _

namespace Store.Steps

/-- What comes out of a queue comes out in the order in which it came in. -/
theorem in_order (h : S.Steps as rs S') (hc : S[id]? = some ⟨.queue, l⟩) :
    ∃ l', S'[id]? = some ⟨.queue, l'⟩ ∧ l ++ moved .add id as rs = moved .take id as rs ++ l' := by
  induction h generalizing l with
  | nil S => exact ⟨l, hc, List.append_nil l⟩
  | cons step rest ih =>
    obtain ⟨l₁, hc₁, hchange⟩ := step.change hc
    obtain ⟨l', hc', horder⟩ := ih hc₁
    refine ⟨l', hc', ?_⟩
    rw [moved_cons, moved_cons, ← List.append_assoc, hchange.in_order, List.append_assoc, horder,
      List.append_assoc]

/-- A container has at the end what it had and what was added, less what was taken. -/
theorem kept (h : S.Steps as rs S') (hc : S[id]? = some ⟨k, l⟩) :
    ∃ l', S'[id]? = some ⟨k, l'⟩ ∧
    (l ++ moved .add id as rs).Perm (moved .take id as rs ++ l') := by
  induction h generalizing l with
  | nil S => exact ⟨l, hc, by simp [moved]⟩
  | cons step rest ih =>
    obtain ⟨l₁, hc₁, hchange⟩ := step.change hc
    obtain ⟨l', hc', hperm⟩ := ih hc₁
    refine ⟨l', hc', ?_⟩
    rw [moved_cons, moved_cons, ← List.append_assoc, List.append_assoc _ _ l']
    refine (hchange.kept.append_right _).trans ?_
    rw [List.append_assoc]
    exact hperm.append_left _

/-- Acts that leave a container as it is. -/
theorem spares (h : S.Steps as rs S') (has : ∀ a ∈ as, a.Spares id) (hc : S[id]? = some ⟨k, l⟩) :
    S'[id]? = some ⟨k, l⟩ := by
  induction h with
  | nil S => exact hc
  | cons step rest ih =>
    exact ih (fun a ha => has a (.tail _ ha)) (step.spares (has _ (.head _)) hc)

end Store.Steps

/-- Acts that work on a container at one end, where they take everything that they add. -/
inductive Nested (k : Kind) (id : SequenceId) (e : End) : List Act → Prop
  | nil : Nested k id e []
  | aside {a : Act} {as : List Act} (ha : a.Spares id) (has : Nested k id e as) :
      Nested k id e (a :: as)
  | pair {add take : Verb} {inner as : List Act} (hadd : add.effect = .add)
      (hin : add.end? k = some e) (htake : take.effect = .take) (hout : take.end? k = some e)
      (v : Value) (hinner : Nested k id e inner) (has : Nested k id e as) :
    Nested k id e (.call add [k.value id, v] :: (inner ++ .call take [k.value id] :: as))

namespace Store.Steps

/-- Acts after others. -/
theorem split {bs : List Act} (h : S.Steps (as ++ bs) rs S') :
    ∃ S₁ rs₁ rs₂, rs = rs₁ ++ rs₂ ∧ S.Steps as rs₁ S₁ ∧ S₁.Steps bs rs₂ S' := by
  induction as generalizing S rs with
  | nil => exact ⟨S, [], rs, rfl, .nil S, h⟩
  | cons a as ih =>
    cases h with
    | cons step rest =>
      obtain ⟨S₁, rs₁, rs₂, rfl, hfirst, hlast⟩ := ih rest
      exact ⟨S₁, _, rs₂, rfl, .cons step hfirst, hlast⟩

/-- Nested acts leave a container as it is. -/
theorem nested (hn : Nested k id e as) (h : S.Steps as rs S') (hc : S[id]? = some ⟨k, l⟩) :
    S'[id]? = some ⟨k, l⟩ := by
  induction hn generalizing S S' rs l with
  | nil => cases h; exact hc
  | aside ha has ih =>
    cases h with
    | cons step rest => exact ih rest (step.spares ha hc)
  | pair hadd hin htake hout v hinner has ihinner ihrest =>
    cases h with
    | cons step rest =>
      obtain ⟨S₁, rs₁, rs₂, -, hfirst, hlast⟩ := rest.split
      have hc₁ := ihinner hfirst (step.of_add hadd hin hc)
      cases hlast with
      | cons step' rest' => exact ihrest rest' (step'.of_take htake hout hc₁).2

/-- What is taken after nested acts is what was added before them. -/
theorem newest_first {add take : Verb} {inner : List Act} (hadd : add.effect = .add)
    (hin : add.end? k = some e) (htake : take.effect = .take) (hout : take.end? k = some e)
    (hinner : Nested k id e inner)
    (h : S.Steps (.call add [k.value id, v] :: (inner ++ [.call take [k.value id]])) rs S')
    (hc : S[id]? = some ⟨k, l⟩) : rs.getLast? = some (.ok v) ∧ S'[id]? = some ⟨k, l⟩ := by
  cases h with
  | cons step rest =>
    obtain ⟨S₁, rs₁, rs₂, rfl, hfirst, hlast⟩ := rest.split
    have hc₁ := nested hinner hfirst (step.of_add hadd hin hc)
    cases hlast with
    | cons step' rest' =>
      cases rest'
      obtain ⟨rfl, hc'⟩ := step'.of_take htake hout hc₁
      exact ⟨by rw [← List.cons_append, List.getLast?_concat], hc'⟩

end Store.Steps

/-- The laws of ideal sequences, for acts one after another. -/
structure Store.Laws (S : Store) (as : List Act) (rs : List (Except Error Value))
    (S' : Store) : Prop where
  /-- What comes out of a queue is what came in, in the same order. -/
  in_order : ∀ id l, S[id]? = some ⟨.queue, l⟩ →
    ∃ l', S'[id]? = some ⟨.queue, l'⟩ ∧ l ++ moved .add id as rs = moved .take id as rs ++ l'
  /-- No container loses or doubles an element. -/
  kept : ∀ id k l, S[id]? = some ⟨k, l⟩ →
    ∃ l', S'[id]? = some ⟨k, l'⟩ ∧ (l ++ moved .add id as rs).Perm (moved .take id as rs ++ l')
  /-- At one end of a container, the newest element is taken first. -/
  newest_first : ∀ id k l e add take v inner, S[id]? = some ⟨k, l⟩ → add.effect = .add →
    add.end? k = some e →
    take.effect = .take → take.end? k = some e → Nested k id e inner →
    as = .call add [k.value id, v] :: (inner ++ [.call take [k.value id]]) →
    rs.getLast? = some (.ok v) ∧ S'[id]? = some ⟨k, l⟩
  /-- A container that no act works on stays as it is. -/
  spared : ∀ id k l, S[id]? = some ⟨k, l⟩ → (∀ a ∈ as, a.Spares id) → S'[id]? = some ⟨k, l⟩

theorem Store.Steps.laws (h : S.Steps as rs S') : S.Laws as rs S' where
  in_order _ _ := h.in_order
  kept _ _ _ := h.kept
  newest_first := by
    rintro id k l e add take v inner hc hadd hin htake hout hinner rfl
    exact h.newest_first hadd hin htake hout hinner hc
  spared _ _ _ hc has := h.spares has hc

end Sequences

open Sequences in
/-- All sequences of acts on containers that exist, each container being referred to by the kind
that it is. Each act gives and does what it would with ideal sequences, and an act that fails
changes nothing at all. -/
theorem containers_are_ideal_sequences {m : Machine} {S : Store} {as : List Act}
    (hS : S.Describes m.heap) (husable : Usable S.kinds as) :
    (∃ rs heap S', performAll? as m = some (rs, { m with heap := heap }) ∧ S.Steps as rs S' ∧
      S'.Describes heap ∧
      S.kinds <+: S'.kinds ∧ (∀ v, .ok v ∈ rs → Known S'.kinds v) ∧ S.Laws as rs S') ∧
    (∀ (a : Act) (fault : Error) (m m' : Machine),
      a.perform? m = some (.error fault, m') → m' = m) ∧
    (∀ (self : Evaluator) (stack : CallStack) (verb : Verb) (nodes : List Node) (args : List Value)
      (m m' : Machine), self.values stack nodes m = .value args m' →
      verb.builtin.call self stack nodes m = (Act.call verb args).run m') ∧
    ∀ (self : Evaluator) (stack : CallStack) (nodes : List Node) (items : List Value)
      (m m' : Machine), self.values stack nodes m = .value items m' →
      makeArray self stack nodes m = (Act.array items).run m' := by
  refine ⟨?_, fun a fault m m' => a.eq_of_failure, ?_, ?_⟩
  · obtain ⟨rs, heap, S', hall, hsteps, hS', hkinds, hknown⟩ := performAll?_follows hS husable
    exact ⟨rs, heap, S', hall, hsteps, hS', hkinds, hknown, hsteps.laws⟩
  · intro self stack verb nodes args m m' hvalues
    rw [Builtin.call_of_values (by cases verb <;> rfl) hvalues,
      Builtin.apply_eq (by cases verb <;> rfl)]
    rfl
  · intro self stack nodes items m m' hvalues
    rw [makeArray, Run.bind_apply, hvalues]
    rfl

open Sequences in
/-- A queue and an array that hold each other for a while. -/
theorem containers_are_ideal_sequences_entangled :
    let m : Machine := { Machine.fresh .still .empty (.ofOctets []) with heap := #[#[.int 1], #[]] }
    let S : Store := [⟨.queue, [.int 1]⟩, ⟨.array, []⟩]
    let inner : List Act := [.call .push [.queue 0, .array 1], .call .pop [.queue 0]]
    let as : List Act := .call .push [.array 1, .queue 0] :: (inner ++ [.call .pop [.array 1]])
    S.Describes m.heap ∧ Usable S.kinds as ∧
      (∃ rs heap S', performAll? as m = some (rs, { m with heap := heap }) ∧ S.Steps as rs S' ∧
        S'.Describes heap ∧
        rs.getLast? = some (.ok (.queue 0)) ∧ S'[1]? = some ⟨.array, []⟩ ∧
        ∃ l', S'[0]? = some ⟨.queue, l'⟩ ∧
          [.int 1] ++ moved .add 0 as rs = moved .take 0 as rs ++ l') ∧
      ∃ fault m', (Act.call .pop [.array 1]).perform? m = some (.error fault, m') ∧ m' = m := by
  intro m S inner as
  have hS : S.Describes m.heap := by
    refine ⟨rfl, fun c hc v hv => ?_⟩
    have hint : v = .int 1 := by
      rcases List.mem_cons.1 hc with rfl | hc
      · exact List.mem_singleton.1 hv
      · cases List.mem_singleton.1 hc
        cases hv
    subst hint
    decide
  have husable : Usable S.kinds as := by decide
  obtain ⟨⟨rs, heap, S', hall, hsteps, hS', -, -, laws⟩, hfails, -⟩ :=
    containers_are_ideal_sequences hS husable
  have hinner : Nested .array 1 .back inner := by
    refine .aside ?_ (.aside ?_ .nil)
    · rintro verb k args h
      cases k <;> cases h
    · rintro verb k args h
      cases k <;> cases h
  obtain ⟨hlast, harray⟩ :=
    laws.newest_first 1 .array [] .back .push .pop (.queue 0) inner rfl rfl rfl rfl rfl hinner rfl
  exact ⟨hS, husable,
    ⟨rs, heap, S', hall, hsteps, hS', hlast, harray, laws.in_order 0 _ rfl⟩, _, _, rfl,
    hfails (.call .pop [.array 1]) _ m m rfl⟩

end LineBasic
