import LineBasic.Proofs.Guards

/-!
# Sound values and safe runs

* `Value.Sound`, `Machine.Sound` : no operator is at large as a value, and the
  bodies of all closures are trees built by the rules. Only the bracketed names of
  operators are bound to operators.
* `Run.Safe` : a run that leads from sound machines to sound machines and ends in no internal
  error. Such runs keep to a guard, `Guard.sound`, and so they are closed under the
  elementary runs and under `bind`.
-/

namespace LineBasic

/-! ### Values and machines -/

/-- A value that a program may hold: no operator, and no function but one of the program's own. -/
def Value.Sound : Value → Prop
  | .builtin b _ => ∀ op, b ≠ .operator op
  | .closure c => Text.isWord c.name = true ∧ c.body.Fits .call
  | _ => True

/-- A name with its value: names of operators may be bound to them. -/
def Value.SoundAs (name : String) (v : Value) : Prop :=
  v.Sound ∨ ∃ op serial, v = .builtin (.operator op) serial ∧ name = op.name

/-- All values of a scope are sound. -/
def Bindings.Sound (b : Bindings) : Prop := ∀ e ∈ b.entries, e.2.SoundAs e.1

/-- All values of a sequence are sound. -/
def Sequence.Sound (items : Array Value) : Prop := ∀ v ∈ items, v.Sound

/-- All that a machine holds is sound. -/
structure Machine.Sound (m : Machine) : Prop where
  scopes : ∀ b ∈ m.scopes, b.Sound
  heap : ∀ items ∈ m.heap, Sequence.Sound items

namespace Value

@[simp] theorem sound_ofLiteral (l : Literal) : (Value.ofLiteral l).Sound := by
  cases l <;> trivial

/-- A word is never bound to an operator. -/
theorem SoundAs.of_isWord {name : String} {v : Value} (h : v.SoundAs name)
    (word : Text.isWord name = true) : v.Sound := by
  rcases h with h | ⟨op, serial, rfl, rfl⟩
  · exact h
  · simp [Operator.isWord_name] at word

end Value

namespace Bindings

theorem Sound.empty : Bindings.empty.Sound := by simp [Bindings.Sound, Bindings.empty]

theorem Sound.replace {name : String} {v : Value} {es : List (String × Value)}
    (hv : v.Sound) (hes : ∀ e ∈ es, e.2.SoundAs e.1) :
    ∀ e ∈ Bindings.replace name v es, e.2.SoundAs e.1 := by
  induction es with
  | nil => simp [Bindings.replace]
  | cons e es ih =>
    have tail := ih fun d hd => hes d (by simp [hd])
    unfold Bindings.replace
    split
    · intro d hd
      rcases List.mem_cons.1 hd with rfl | hd
      · exact .inl hv
      · exact hes d (by simp [hd])
    · intro d hd
      rcases List.mem_cons.1 hd with rfl | hd
      · exact hes _ (by simp)
      · exact tail d hd

theorem Sound.insert {b : Bindings} {name : String} {v : Value} (hb : b.Sound) (hv : v.Sound) :
    (b.insert name v).Sound := by
  unfold Bindings.insert
  split
  · exact Sound.replace hv hb
  · intro e he
    rcases List.mem_cons.1 he with rfl | he
    · exact .inl hv
    · exact hb e he

theorem Sound.find? {b : Bindings} {name : String} {v : Value} (hb : b.Sound)
    (h : b.find? name = some v) : v.SoundAs name := by
  obtain ⟨l, r, hes, -⟩ := List.lookup_eq_some_iff.1 h
  exact hb (name, v) (by simp [hes])

theorem Sound.ofArguments {params : List String} {args : List Value}
    (h : ∀ v ∈ args, v.Sound) : (Bindings.ofArguments params args).Sound := by
  have step : ∀ (ps : List (String × Value)) (b : Bindings), b.Sound →
      (∀ p ∈ ps, p.2.Sound) →
      (ps.foldl (fun b p => b.insert (Text.upperCase p.1) p.2) b).Sound := by
    intro ps
    induction ps with
    | nil => exact fun b hb _ => hb
    | cons p ps ih =>
      intro b hb hps
      exact ih _ (hb.insert (hps p (by simp))) fun q hq => hps q (by simp [hq])
  exact step _ _ Sound.empty fun p hp => h p.2 (List.of_mem_zip hp).2

end Bindings

/-- Sound machines, and errors that are not internal. -/
def Guard.sound : Guard where
  value := Value.Sound
  scopes s := ∀ b ∈ s, b.Sound
  error e := e.isInternal = false
  plain {v} h := by cases v <;> trivial
  external h := h

theorem Sequence.Sound.push {items : Array Value} {v : Value} (hi : Sequence.Sound items)
    (hv : v.Sound) : Sequence.Sound (items.push v) :=
  Guard.sequence_push (G := Guard.sound) hi hv

theorem Value.sound_getD {items : Array Value} (h : Sequence.Sound items) (i : Nat) :
    (items.getD i .nothing).Sound :=
  Guard.value_getD (G := Guard.sound) h i

theorem Machine.obeys_sound {m : Machine} : m.Obeys Guard.sound ↔ m.Sound :=
  ⟨fun h => ⟨h.scopes, h.heap⟩, fun h => ⟨h.scopes, h.heap⟩⟩

namespace Machine
namespace Sound

variable {m m' : Machine}

/-- Only the scopes and the sequences count. -/
theorem of_eq (h : m.Sound) (hs : m'.scopes = m.scopes) (hh : m'.heap = m.heap) : m'.Sound :=
  ⟨hs ▸ h.scopes, hh ▸ h.heap⟩

theorem define (h : m.Sound) {id : ScopeId} {name : String} {v : Value} (hv : v.Sound) :
    Machine.Sound { m with scopes := m.scopes.define id name v } := by
  refine ⟨?_, h.heap⟩
  intro b hb
  obtain ⟨i, hi, rfl⟩ := Array.mem_iff_getElem.1 hb
  simp only [Scopes.define, Array.getElem_modify, Array.size_modify] at hi ⊢
  split
  · exact (h.scopes _ (Array.getElem_mem hi)).insert hv
  · exact h.scopes _ (Array.getElem_mem hi)

theorem assign (h : m.Sound) {chain : Chain} {name : String} {v : Value} (hv : v.Sound) :
    Machine.Sound { m with scopes := m.scopes.assign chain name v } := by
  unfold Scopes.assign
  split
  · exact h.define hv
  · exact h.define hv

theorem assignShared (h : m.Sound) {chain : Chain} {name : String} {v : Value} (hv : v.Sound) :
    Machine.Sound { m with scopes := m.scopes.assignShared chain name v } := h.define hv

theorem newScope (h : m.Sound) {b : Bindings} (hb : b.Sound) : (m.newScope b).2.Sound := by
  refine ⟨fun c hc => ?_, h.heap⟩
  rcases Array.mem_push.1 hc with hc | rfl
  · exact h.scopes c hc
  · exact hb

theorem edit (h : m.Sound) (id : SequenceId) {f : Array Value → Array Value}
    (hf : ∀ items, Sequence.Sound items → Sequence.Sound (f items)) : (m.edit id f).Sound :=
  obeys_sound.1 ((obeys_sound.2 h).edit id hf)

theorem find? (h : m.Sound) {chain : Chain} {name : String} {v : Value}
    (found : m.scopes.find? chain name = some v) : v.SoundAs (Text.upperCase name) := by
  obtain ⟨id, -, hid⟩ := List.exists_of_findSome?_eq_some found
  obtain ⟨b, hb, hv⟩ := Option.bind_eq_some_iff.1 hid
  exact (h.scopes b (Array.mem_of_getElem? hb)).find? hv

theorem install (h : m.Sound) (library : Bundle) : (m.install library).Sound := by
  have step : ∀ (bs : List Builtin) (serial : Nat) (m : Machine), m.Sound →
      (∀ b ∈ bs, ∀ op, b ≠ .operator op) →
      (bs.foldl (fun m b => m.defineGlobal b.name (.builtin b serial)) m).Sound := by
    intro bs serial
    induction bs with
    | nil => exact fun m hm _ => hm
    | cons b bs ih =>
      intro m hm hbs
      exact ih _ (hm.define (hbs b (by simp))) fun c hc => hbs c (by simp [hc])
  refine step _ _ _ (h.of_eq rfl rfl) ?_
  cases library <;> simp [Bundle.contents]

end Sound

theorem sound_initialBindings : initialBindings.Sound := by
  intro e he
  rcases List.mem_append.1 he with he | he
  · obtain ⟨b, -, rfl⟩ := List.mem_map.1 he
    cases b with
    | operator op => exact .inr ⟨op, 0, rfl, rfl⟩
    | _ => exact .inl (by simp [Value.Sound])
  · simp only [List.mem_cons, List.not_mem_nil, or_false] at he
    rcases he with rfl | rfl | rfl | rfl <;> exact .inl trivial

theorem sound_fresh (world : World) (disk : Disk) (input : Input) :
    (fresh world disk input).Sound := by
  refine ⟨?_, by simp [fresh]⟩
  simpa [fresh] using sound_initialBindings

end Machine

/-! ### Safe runs -/

/-- The end of a safe run. -/
def Outcome.Safe {α : Type} (P : α → Prop) : Outcome α → Prop
  | .value a m => m.Sound ∧ P a
  | .failure e m => m.Sound ∧ e.isInternal = false
  | .exhausted => True

namespace Run

variable {α β : Type} {P : α → Prop} {Q : β → Prop}

/-- From a sound machine the run leads to a sound machine, with a result that has the property or
with an error that is not internal. -/
def Safe (P : α → Prop) (r : Run α) : Prop := ∀ m, m.Sound → (r m).Safe P

/-- Safe runs are those that keep machines sound. -/
theorem upholds_sound {r : Run α} : r.Upholds Guard.sound P ↔ r.Safe P := by
  have hends (o : Outcome α) : o.Upholds Guard.sound P ↔ o.Safe P := by
    cases o with
    | value a m => exact and_congr Machine.obeys_sound Iff.rfl
    | failure e m => exact and_congr Machine.obeys_sound Iff.rfl
    | exhausted => exact Iff.rfl
  simp only [Upholds, Safe, Machine.obeys_sound, hends]

namespace Safe

theorem pure {a : α} (h : P a) : Safe P (Pure.pure a) := upholds_sound.1 (.pure h)

theorem bind {r : Run α} {f : α → Run β} (hr : Safe P r) (hf : ∀ a, P a → Safe Q (f a)) :
    Safe Q (r >>= f) :=
  upholds_sound.1 (.bind (upholds_sound.2 hr) fun a ha => upholds_sound.2 (hf a ha))

/-- A run whose result does not matter, and another one. -/
theorem andThen {r : Run α} {f : α → Run β} (hr : Safe (fun _ => True) r)
    (hf : ∀ a, Safe Q (f a)) : Safe Q (r >>= f) := bind hr fun a _ => hf a

theorem mono {P' : α → Prop} {r : Run α} (hr : Safe P r) (h : ∀ a, P a → P' a) : Safe P' r :=
  upholds_sound.1 ((upholds_sound.2 hr).mono h)

theorem fail {e : Error} (h : e.isInternal = false) : Safe P (Run.fail e) :=
  upholds_sound.1 (.failExternal h)

theorem exhausted : Safe P Run.exhausted := upholds_sound.1 (.exhausted trivial)

theorem look {f : Machine → α} : Safe (fun _ => True) (Run.read f) := upholds_sound.1 .look

theorem update {f : Machine → Machine} (h : ∀ m, m.Sound → (f m).Sound) :
    Safe (fun _ => True) (Run.update f) := fun m hm => ⟨h m hm, trivial⟩

theorem take {f : Machine → α × Machine} (h : ∀ m, m.Sound → (f m).2.Sound ∧ P (f m).1) :
    Safe P (Run.take f) := fun m hm => h m hm

theorem ofExcept {x : Except Error α} (h : Checked P x) : Safe P (Run.ofExcept x) :=
  upholds_sound.1 (.ofExcept h)

theorem ofPlain {x : Except Error Value} (h : Checked Value.IsPlain x) :
    Safe Value.Sound (Run.ofExcept x) :=
  upholds_sound.1 (.ofPlain h)

theorem onHeap {f : Heap → Except Error Value} (h : ∀ heap, Checked Value.IsPlain (f heap)) :
    Safe Value.Sound (Run.onHeap f) :=
  upholds_sound.1 (.onHeap h)

theorem sequence (id : SequenceId) : Safe Sequence.Sound (Run.read fun m => m.heap.sequence id) :=
  upholds_sound.1 (.sequence id)

theorem allocate {items : Array Value} (h : Sequence.Sound items) :
    Safe (fun _ => True) (Run.take fun m => m.allocate items) :=
  upholds_sound.1 (.allocate h)

/-- The value of a name; that of a word is sound. -/
theorem lookup (chain : Chain) (name : String) :
    Safe (fun v => v.SoundAs (Text.upperCase name)) (Run.lookup chain name) := by
  intro m hm
  unfold Run.lookup
  split
  · next v h => exact ⟨hm, hm.find? h⟩
  · exact ⟨hm, rfl⟩

theorem lookupWord (chain : Chain) {name : String} (word : Text.isWord name = true) :
    Safe Value.Sound (Run.lookup chain name) :=
  (lookup chain name).mono fun _ h => h.of_isWord (Text.isWord_upperCase word)

theorem print (s : String) : Safe (fun _ => True) (Run.print s) := upholds_sound.1 (.print s)

theorem display (v : Value) : Safe (fun _ => True) (Run.display v) := look

end Safe
end Run

end LineBasic
