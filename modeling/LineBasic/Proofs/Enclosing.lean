import LineBasic.Proofs.Operators

/-!
# Scopes inside each other

A chain lists the scopes that names are looked up in. The scopes themselves can also be linked: each
one to the scope that encloses it, so that a call and a function of the program only have to know
the innermost scope of their chain. Functions are bound in scopes, and scopes are where functions
find their names, so what refers to what goes round in circles; the links do not.

* `Links` : the scope that encloses each scope; `Links.chain` follows them.
* `Links.Climbs` : a search outwards that comes to an end.
* `Links.Rooted` : links lead to older scopes, and in the end to the global one.
* `Links.realm` : the realm of functions that have captured scopes as they are linked.
* `Situation`, `Trace` : a machine with links and with the scopes of the calls under
  way, and all such before it.
* `Linked` : computations that lead from situation to situation; `Linked.eval` is evaluation.
* `Linked.Mirrors` : a computation ends as a run does, and all situations on the way are in order.
  `Plan.mirrors_linked` is the step, `Linked.mirrorsAll_eval` is the whole evaluation.
* `scopes_form_a_tree` : so it is in all situations that any trees lead to, and links never change.
-/

namespace LineBasic

/-! ### Links -/

/-- For each scope the one that encloses it, if there is one. -/
abbrev Links := List (Option ScopeId)

namespace Links

open Scopes (global)

/-- The scope that encloses another one. -/
def enclosing? (l : Links) (id : ScopeId) : Option ScopeId := (l[id]?).join

/-- The scopes from one outwards, at most so many after the first. -/
def chainUpTo (l : Links) : Nat → ScopeId → Chain
  | 0, id => [id]
  | k + 1, id =>
    match l.enclosing? id with
    | none => [id]
    | some outer => id :: chainUpTo l k outer

/-- The scopes from one outwards. -/
def chain (l : Links) (id : ScopeId) : Chain := l.chainUpTo l.length id

/-- A search from a scope outwards, up to the first scope at which there is
something, comes to an end. -/
inductive Climbs {α : Type} (l : Links) (look : ScopeId → Option α) : ScopeId → Option α → Prop
  | found {id : ScopeId} {a : α} (here : look id = some a) : Climbs l look id (some a)
  | outside {id : ScopeId} (nothing : look id = none) (last : l.enclosing? id = none) :
      Climbs l look id none
  | outwards {id outer : ScopeId} {a? : Option α} (nothing : look id = none)
      (link : l.enclosing? id = some outer) (rest : Climbs l look outer a?) : Climbs l look id a?

/-- Each scope of a chain is enclosed by the next one, and the last one is the global one. -/
inductive Path (l : Links) : Chain → Prop
  | top : Path l [global]
  | inside {id outer : ScopeId} {c : Chain} (link : l[id]? = some (some outer))
      (rest : Path l (outer :: c)) : Path l (id :: outer :: c)

/-- The global scope is not enclosed, and all others are enclosed by older ones. -/
structure Rooted (l : Links) : Prop where
  root : l[global]? = some none
  only : ∀ {id : ScopeId}, l[id]? = some none → id = global
  older : ∀ {id outer : ScopeId}, l[id]? = some (some outer) → outer < id

variable {l l' : Links} {id outer : ScopeId} {c : Chain}

theorem enclosing?_eq_some : l.enclosing? id = some outer ↔ l[id]? = some (some outer) := by
  simp [enclosing?, Option.join_eq_some_iff]

theorem Path.ne_nil (h : l.Path c) : c ≠ [] := by
  cases h <;> simp

theorem Path.getLast? (h : l.Path c) : c.getLast? = some global := by
  induction h with
  | top => rfl
  | inside link rest ih => rw [List.getLast?_cons_cons, ih]

/-- Links that are added do not matter. -/
theorem Path.mono (h : l.Path c) (hl : l <+: l') : l'.Path c := by
  induction h with
  | top => exact .top
  | inside link rest ih =>
    obtain ⟨more, rfl⟩ := hl
    refine .inside ?_ ih
    rw [List.getElem?_append_left (List.getElem?_eq_some_iff.1 link).1, link]

namespace Rooted

theorem length_pos (h : l.Rooted) : 0 < l.length := (List.getElem?_eq_some_iff.1 h.root).1

theorem enclosing?_global (h : l.Rooted) : l.enclosing? global = none := by
  simp [enclosing?, h.root]

/-- One more scope, inside one that is there. -/
theorem push (h : l.Rooted) (inside : outer < l.length) : Rooted (l ++ [some outer]) := by
  have hcases {i : ScopeId} {x : Option ScopeId} (hx : (l ++ [some outer])[i]? = some x) :
      l[i]? = some x ∨ i = l.length ∧ x = some outer := by
    rw [List.getElem?_append] at hx
    split at hx
    · exact .inl hx
    · next hge =>
      obtain ⟨hlt, hx⟩ := List.getElem?_eq_some_iff.1 hx
      simp only [List.length_singleton, List.getElem_singleton] at hlt hx
      exact .inr ⟨Nat.le_antisymm (by omega) (Nat.not_lt.1 hge), hx.symm⟩
  refine ⟨(List.getElem?_append_left h.length_pos).trans h.root, fun hx => ?_, fun hx => ?_⟩
  · rcases hcases hx with hx | ⟨-, hx⟩
    · exact h.only hx
    · cases hx
  · rcases hcases hx with hx | ⟨hlast, hnew⟩
    · exact h.older hx
    · cases hnew
      exact hlast ▸ inside

/-- Going outwards, scopes get older. -/
theorem pairwise (h : l.Rooted) (hc : l.Path c) : c.Pairwise (· > ·) := by
  induction hc with
  | top => exact List.pairwise_singleton ..
  | inside link rest ih =>
    have holder := h.older link
    refine List.pairwise_cons.2 ⟨fun j hj => ?_, ih⟩
    rcases List.mem_cons.1 hj with rfl | hj
    · exact holder
    · exact Nat.lt_trans ((List.pairwise_cons.1 ih).1 j hj) holder

/-- A chain is not longer than its first scope is old. -/
theorem length_le (h : l.Rooted) (hc : l.Path (id :: c)) : c.length ≤ id := by
  generalize hd : id :: c = d at hc
  induction hc generalizing id c with
  | top =>
    cases hd
    exact Nat.zero_le _
  | inside link rest ih =>
    cases hd
    exact Nat.succ_le_of_lt (Nat.lt_of_le_of_lt (ih rfl) (h.older link))

theorem lt_length (h : l.Rooted) (hc : l.Path (id :: c)) : id < l.length := by
  cases hc with
  | top => exact h.length_pos
  | inside link rest => exact (List.getElem?_eq_some_iff.1 link).1

/-- From every scope one comes to the global one. -/
theorem exists_path (h : l.Rooted) (hid : id < l.length) : ∃ c, l.Path (id :: c) := by
  induction id using Nat.strongRecOn with
  | ind id ih =>
    obtain ⟨x, hx⟩ : ∃ x, l[id]? = some x := ⟨_, List.getElem?_eq_getElem hid⟩
    cases x with
    | none => exact ⟨[], h.only hx ▸ .top⟩
    | some outer =>
      have holder := h.older hx
      obtain ⟨c, hc⟩ := ih outer holder (Nat.lt_trans holder hid)
      exact ⟨outer :: c, .inside hx hc⟩

theorem chainUpTo_eq (h : l.Rooted) (hc : l.Path (id :: c)) {k : Nat} (hk : c.length ≤ k) :
    l.chainUpTo k id = id :: c := by
  induction k generalizing id c with
  | zero => rw [List.length_eq_zero_iff.1 (Nat.le_zero.1 hk), chainUpTo]
  | succ k ih =>
    cases hc with
    | top => simp [chainUpTo, h.enclosing?_global]
    | inside link rest =>
      rw [chainUpTo, enclosing?_eq_some.2 link]
      exact congrArg (id :: ·) (ih rest (Nat.le_of_succ_le_succ hk))

/-- Following the links gives the chain. -/
theorem chain_eq (h : l.Rooted) (hc : l.Path (id :: c)) : l.chain id = id :: c :=
  h.chainUpTo_eq hc (Nat.le_of_lt (Nat.lt_of_le_of_lt (h.length_le hc) (h.lt_length hc)))

theorem path_chain (h : l.Rooted) (hid : id < l.length) : l.Path (l.chain id) := by
  obtain ⟨c, hc⟩ := h.exists_path hid
  rwa [h.chain_eq hc]

/-- A chain is known by its first scope. -/
theorem chain_innermost (h : l.Rooted) (hc : l.Path c) :
    l.chain (Scopes.innermost c) = c ∧ Scopes.innermost c < l.length := by
  cases c with
  | nil => exact absurd rfl hc.ne_nil
  | cons id c => exact ⟨h.chain_eq hc, h.lt_length hc⟩

/-- All searches come to an end, with what there is first along the chain. -/
theorem climbs {α : Type} (h : l.Rooted) (hid : id < l.length) (look : ScopeId → Option α) :
    l.Climbs look id ((l.chain id).findSome? look) := by
  obtain ⟨c, hc⟩ := h.exists_path hid
  rw [h.chain_eq hc]
  generalize hd : id :: c = d at hc
  clear hid
  induction hc generalizing id c with
  | top =>
    cases hd
    cases hlook : look global with
    | some a => simpa [hlook] using Climbs.found hlook
    | none => simpa [hlook] using Climbs.outside hlook h.enclosing?_global
  | @inside inner outer c' link rest ih =>
    cases hd
    cases hlook : look inner with
    | some a => simpa [hlook] using Climbs.found hlook
    | none =>
      rw [List.findSome?_cons, hlook]
      exact .outwards hlook (enclosing?_eq_some.2 link) (ih _ rfl)

/-- Links that are added do not change a chain. -/
theorem chain_mono (h : l.Rooted) (h' : l'.Rooted) (hl : l <+: l') (hid : id < l.length) :
    l'.chain id = l.chain id := by
  obtain ⟨c, hc⟩ := h.exists_path hid
  rw [h.chain_eq hc, h'.chain_eq (hc.mono hl)]

end Rooted

/-- Says where the search for the outermost scope ends. -/
def outermost? (l : Links) (id : ScopeId) : Option ScopeId :=
  match l.enclosing? id with
  | none => some id
  | some _ => none

/-- The search for the outermost scope ends at the global one. -/
theorem Rooted.climbs_outermost (h : l.Rooted) (hid : id < l.length) :
    l.Climbs l.outermost? id (some global) := by
  obtain ⟨c, hc⟩ := h.exists_path hid
  generalize hd : id :: c = d at hc
  clear hid
  induction hc generalizing id c with
  | top =>
    cases hd
    exact .found (by rw [outermost?, h.enclosing?_global])
  | inside link rest ih =>
    cases hd
    have hlink := enclosing?_eq_some.2 link
    exact .outwards (by rw [outermost?, hlink]) hlink (ih _ rfl)

end Links

/-! ### What is captured -/

/-- A function knows scopes that enclose each other. -/
def Value.Linked (l : Links) : Value → Prop
  | .closure c => l.Path c.scope
  | _ => True

theorem Value.Linked.mono {l l' : Links} {v : Value} (h : v.Linked l) (hl : l <+: l') :
    v.Linked l' := by
  cases v with
  | closure c => exact Links.Path.mono h hl
  | _ => trivial

/-- The realm in which names are looked up along links. -/
def Links.realm (l : Links) : Realm where
  node _ := True
  chain := l.Path
  value := Value.Linked l
  scopes := Scopes.Hold (Value.Linked l)
  plain {v} h := by cases v <;> trivial
  child _ _ := trivial
  top := .top
  found _ _ _ hs hv := hs.found hv
  assigned _ _ _ hs hv := hs.assign hv _ _
  declared _ _ _ hs hv := hs.define hv _ _
  counted _ _ _ hs hv := hs.define hv _ _
  swapped _ _ _ _ hs hv := hs.define hv _ _
  closed {_ body _ name params serial c _} _ _ _ hc hs :=
    hs.define (v := .closure ⟨serial, name, params, body, c⟩) hc _ _
  installed {_ b serial _} _ hs := hs.define (v := .builtin b serial) trivial _ _

namespace Links

variable {l l' : Links}

theorem flow_mono {f : Flow} (h : l.realm.flow f) (hl : l <+: l') : l'.realm.flow f := by
  rcases f with v | _ | _ | v
  · exact Value.Linked.mono h hl
  · trivial
  · trivial
  · exact Value.Linked.mono h hl

theorem obeys_mono {m : Machine} (h : m.Obeys l.realm.guard) (hl : l <+: l') :
    m.Obeys l'.realm.guard :=
  ⟨fun hv => Value.Linked.mono (h.scopes hv) hl,
    fun items hitems v hv => Value.Linked.mono (h.heap items hitems v hv) hl⟩

end Links

/-! ### Situations -/

/-- A machine with the links of its scopes, with the scopes of the calls under way, the innermost
first, and with what the node that was evaluated last has ended with. -/
structure Situation where
  links : Links
  frames : List ScopeId
  machine : Machine
  last : Flow

namespace Situation

/-- The scope in which names are looked up first. -/
def current (s : Situation) : ScopeId := s.frames.headD Scopes.global

/-- The calls under way, with all the scopes that names are looked up in, and
with values kept aside. -/
def stack (s : Situation) (limit : Nat) (held : List Value) : CallStack :=
  ⟨limit, s.frames.map s.links.chain, held⟩

/-- A call begins, with a new scope inside another one. -/
def enter (s : Situation) (outer : ScopeId) (names : Bindings) : Situation where
  links := s.links ++ [some outer]
  frames := s.machine.scopes.size :: s.frames
  machine := (s.machine.newScope names).2
  last := s.last

/-- A call ends. -/
def leave (s : Situation) : Situation := { s with frames := s.frames.tail }

/-- The end of a computation in a situation. -/
def outcome {α : Type} (s : Situation) : Option (Except Error α) → Outcome α
  | some (.ok a) => .value a s.machine
  | some (.error e) => .failure e s.machine
  | none => .exhausted

/-- A value is bound to a name, is an element of a sequence, or is what the
last node has ended with. -/
def Holds (s : Situation) (v : Value) : Prop :=
  (∃ id key, s.machine.scopes.local? id key = some v) ∨ (∃ items ∈ s.machine.heap, v ∈ items) ∨
    s.last = .value v ∨ s.last = .signal (.returned v)

/-- Scopes are linked, and everything keeps to the links. -/
structure InOrder (s : Situation) : Prop where
  rooted : s.links.Rooted
  complete : s.links.length = s.machine.scopes.size
  frames : ∀ id ∈ s.frames, id < s.links.length
  machine : s.machine.Obeys s.links.realm.guard
  last : s.links.realm.flow s.last

namespace InOrder

variable {s : Situation}

theorem current_lt (h : s.InOrder) : s.current < s.links.length := by
  unfold current
  cases hframes : s.frames with
  | nil => exact h.rooted.length_pos
  | cons id frames => exact h.frames id (by rw [hframes]; exact .head _)

theorem chain_stack (h : s.InOrder) (limit : Nat) (held : List Value) :
    (s.stack limit held).chain = s.links.chain s.current := by
  unfold stack CallStack.chain current
  cases s.frames with
  | nil => exact (h.rooted.chain_eq .top).symm
  | cons id frames => rfl

theorem stack_bottom (h : s.InOrder) (hframes : s.frames = [Scopes.global]) (limit : Nat) :
    s.stack limit [] = .bottom limit := by
  have hglobal : s.links.chain Scopes.global = [Scopes.global] := h.rooted.chain_eq .top
  simp only [stack, hframes, List.map_cons, List.map_nil, hglobal, CallStack.bottom]

/-- Calls that are under way stay what they are when links are added. -/
theorem stack_eq {s' : Situation} (h : s.InOrder) (h' : s'.InOrder) (hframes : s'.frames = s.frames)
    (hl : s.links <+: s'.links) (limit : Nat) (held : List Value) :
    s'.stack limit held = s.stack limit held := by
  unfold stack
  rw [hframes]
  congr 1
  exact List.map_congr_left fun id hid => h.rooted.chain_mono h'.rooted hl (h.frames id hid)

theorem linked_of_holds (h : s.InOrder) {v : Value} (hv : s.Holds v) : v.Linked s.links := by
  rcases hv with ⟨id, key, hv⟩ | ⟨items, hitems, hv⟩ | hv | hv
  · exact h.machine.scopes hv
  · exact h.machine.heap items hitems v hv
  · have hlast := h.last
    rw [hv] at hlast
    exact hlast
  · have hlast := h.last
    rw [hv] at hlast
    exact hlast

theorem enter (h : s.InOrder) {c : Closure} {args : List Value} (hc : s.links.Path c.scope)
    (hargs : ∀ v ∈ args, v.Linked s.links) :
    (s.enter (Scopes.innermost c.scope) (.ofArguments c.params args)).InOrder := by
  have hgrown : s.links <+: s.links ++ [some (Scopes.innermost c.scope)] := List.prefix_append ..
  have hmachine := Links.obeys_mono h.machine hgrown
  refine ⟨h.rooted.push (h.rooted.chain_innermost hc).2, ?_, fun id hid => ?_, ?_, ?_⟩
  · simp [Situation.enter, Machine.newScope, h.complete]
  · simp only [Situation.enter, List.length_append, List.length_singleton, List.mem_cons] at hid ⊢
    rcases hid with rfl | hid
    · exact h.complete ▸ Nat.lt_succ_self _
    · exact Nat.lt_succ_of_lt (h.frames id hid)
  · refine hmachine.withScopes (Scopes.Hold.push hmachine.scopes c.params fun v hv => ?_)
    exact (hargs v hv).mono hgrown
  · exact Links.flow_mono h.last hgrown

theorem stack_enter (h : s.InOrder) {c : Closure} {args : List Value} (hc : s.links.Path c.scope)
    (hargs : ∀ v ∈ args, v.Linked s.links) (limit : Nat) (held : List Value) :
    (s.enter (Scopes.innermost c.scope) (.ofArguments c.params args)).stack limit held =
      (s.stack limit held).push (s.machine.scopes.size :: c.scope) := by
  have hrooted : Links.Rooted (s.links ++ [some (Scopes.innermost c.scope)]) :=
    (h.enter hc hargs).rooted
  have hgrown : s.links <+: s.links ++ [some (Scopes.innermost c.scope)] := List.prefix_append ..
  have hpath :
      (s.links ++ [some (Scopes.innermost c.scope)]).Path (s.machine.scopes.size :: c.scope) := by
    obtain ⟨hscope, -⟩ := h.rooted.chain_innermost hc
    cases hcs : c.scope with
    | nil => exact absurd hcs hc.ne_nil
    | cons id outer =>
      refine .inside ?_ (hcs ▸ hc.mono hgrown)
      rw [← h.complete, List.getElem?_concat_length]
      rfl
  unfold stack CallStack.push
  simp only [Situation.enter, List.map_cons]
  rw [hrooted.chain_eq hpath]
  congr 2
  exact List.map_congr_left fun id hid => h.rooted.chain_mono hrooted hgrown (h.frames id hid)

end InOrder
end Situation

/-- A situation, and all the ones before it, the latest first. -/
structure Trace where
  now : Situation
  past : List Situation

namespace Trace

/-- All situations, the latest first. -/
def all (t : Trace) : List Situation := t.now :: t.past

/-- One more situation. -/
def next (t : Trace) (s : Situation) : Trace := ⟨s, t.all⟩

/-- Before the first program there is the global scope only. -/
def fresh (world : World) (disk : Disk) (input : Input) : Trace :=
  ⟨⟨[none], [Scopes.global], .fresh world disk input, .done⟩, []⟩

/-- All situations are in order, and links are added only. -/
structure InOrder (t : Trace) : Prop where
  each : ∀ s ∈ t.all, s.InOrder
  growing : t.all.Pairwise fun later earlier => earlier.links <+: later.links

/-- What happens later is in order too, with the same calls under way and with the
same links, and more. -/
structure Leads (t t' : Trace) : Prop where
  inOrder : t'.InOrder
  frames : t'.now.frames = t.now.frames
  grown : t.now.links <+: t'.now.links

variable {t t' t'' : Trace} {s : Situation}

theorem InOrder.now (h : t.InOrder) : t.now.InOrder := h.each _ (.head _)

theorem InOrder.next (h : t.InOrder) (hs : s.InOrder) (hl : t.now.links <+: s.links) :
    (t.next s).InOrder := by
  refine ⟨List.forall_mem_cons.2 ⟨hs, h.each⟩, List.pairwise_cons.2 ⟨fun e he => ?_, h.growing⟩⟩
  rcases List.mem_cons.1 he with rfl | he
  · exact hl
  · exact ((List.pairwise_cons.1 h.growing).1 e he).trans hl

theorem InOrder.refl (h : t.InOrder) : t.Leads t := ⟨h, rfl, List.prefix_refl _⟩

theorem Leads.trans (h : t.Leads t') (h' : t'.Leads t'') : t.Leads t'' :=
  ⟨h'.inOrder, h'.frames.trans h.frames, h.grown.trans h'.grown⟩

theorem Leads.stack_eq (h : t.Leads t') (ht : t.InOrder) (limit : Nat) (held : List Value) :
    t'.now.stack limit held = t.now.stack limit held :=
  ht.now.stack_eq h.inOrder.now h.frames h.grown limit held

end Trace

/-! ### Evaluation with links -/

/-- A computation that leads from situation to situation. It may fail, or not end. -/
def Linked (α : Type) := Trace → Trace × Option (Except Error α)

namespace Linked

variable {α β : Type}

/-- One computation after another. An error ends both. -/
def bind (x : Linked α) (f : α → Linked β) : Linked β := fun t =>
  match x t with
  | (t', some (.ok a)) => f a t'
  | (t', some (.error e)) => (t', some (.error e))
  | (t', none) => (t', none)

instance : Monad Linked where
  pure a := fun t => (t, some (.ok a))
  bind := Linked.bind

/-- A run that looks names up from the current scope outwards. -/
def lift (run : Chain → Run α) : Linked α := fun t =>
  match run (t.now.links.chain t.now.current) t.now.machine with
  | .value a m => (t.next { t.now with machine := m }, some (.ok a))
  | .failure e m => (t.next { t.now with machine := m }, some (.error e))
  | .exhausted => (t, none)

/-- Fails if there is no room for one more call. -/
def room (limit : Nat) : Linked Unit := fun t =>
  (t, some (if limit < t.now.frames.length then .error (.recursionLimit limit) else .ok ()))

/-- A computation in a new scope inside another one, which is left whatever the end is. -/
def within (outer : ScopeId) (names : Bindings) (x : Linked α) : Linked α := fun t =>
  match x (t.next (t.now.enter outer names)) with
  | (t', e) => (t'.next t'.now.leave, e)

/-- What was dropped is written out, as the calls under way and the values kept aside say. -/
def settle (limit : Nat) (held : List Value) : Linked Unit := fun t =>
  (t.next { t.now with machine := t.now.machine.sweep (t.now.stack limit held).roots },
    some (.ok ()))

/-- A function of the program applied to values, while others are kept aside. Of its scopes only the
innermost one is made use of. -/
def call (limit : Nat) (self : List Value → Node → Linked Flow) (held : List Value) (c : Closure)
    (args : List Value) : Linked Value := do
  lift fun _ => c.checkCount args.length
  room limit
  let flow ← within (Scopes.innermost c.scope) (.ofArguments c.params args) (self held c.body)
  return flow.returnValue

/-- Takes down what a node has ended with. -/
def noted (x : Linked Flow) : Linked Flow :=
  x.bind fun f t => (t.next { t.now with last := f }, some (.ok f))

end Linked

/-- The computation that follows a plan. -/
def Plan.linked {α : Type} (limit : Nat) (self : List Value → Node → Linked Flow)
    (held : List Value) :
    Plan α → Linked α
  | done a => pure a
  | own r next => Linked.lift r >>= fun b => (next b).linked limit self held
  | settle more next => Linked.settle limit (more ++ held) >>= fun _ => next.linked limit self held
  | part more n next => self (more ++ held) n >>= fun flow => (next flow).linked limit self held
  | call more c args next =>
    Linked.call limit self (more ++ held) c args >>= fun v => (next v).linked limit self held

namespace Linked

/-- Evaluation of nodes with linked scopes. -/
def eval (limit : Nat) : Nat → List Value → Node → Linked Flow
  | 0, _, _ => lift fun _ => Run.exhausted
  | fuel + 1, held, n => noted ((Planned.evaluate fuel n).plan.linked limit (eval limit fuel) held)

/-- Trees evaluated one after another, whether or not they fail, as long as the
fuel of each is enough. -/
def evalAll (limit : Nat) : List (Nat × Node) → Trace → Trace × List (Outcome Flow)
  | [], t => (t, [])
  | (fuel, n) :: units, t =>
    match eval limit fuel [] n t with
    | (t', none) => (t', [.exhausted])
    | (t', some e) =>
      let (t'', rest) := evalAll limit units t'
      (t'', t'.now.outcome (some e) :: rest)

end Linked

/-- Trees evaluated one after another, each on the machine that the one before has left. -/
def evalAll (limit : Nat) : List (Nat × Node) → Machine → List (Outcome Flow)
  | [], _ => []
  | (fuel, n) :: units, m =>
    match eval fuel (.bottom limit) n m with
    | .value f m' => .value f m' :: evalAll limit units m'
    | .failure e m' => .failure e m' :: evalAll limit units m'
    | .exhausted => [.exhausted]

/-! ### Evaluation with links is evaluation with chains -/

theorem Run.guard_bind {α : Type} (b : Bool) (e : Error) (r : Run α) :
    ((if b then Run.fail e else pure () : Run Unit) >>= fun _ => r) =
      if b then Run.fail e else r := by
  cases b <;> rfl

namespace Linked

/-- A computation ends as a run does, with a result that has the property, and all situations on
the way are in order. -/
structure Mirrors {α : Type} (t : Trace) (P : Links → α → Prop) (x : Linked α)
    (run : Run α) : Prop where
  leads : t.Leads (x t).1
  outcome : (x t).1.now.outcome (x t).2 = run t.now.machine
  result : ∀ a, (x t).2 = some (.ok a) → P (x t).1.now.links a

/-- Nodes are evaluated as an evaluator does it. -/
def MirrorsAll (limit : Nat) (self : List Value → Node → Linked Flow) (ev : Evaluator) : Prop :=
  ∀ t : Trace, t.InOrder → ∀ held n,
    Mirrors t (fun l => l.realm.flow) (self held n) (ev (t.now.stack limit held) n)

variable {α β : Type} {t : Trace} {P : Links → α → Prop} {Q : Links → β → Prop} {limit : Nat}
  {held : List Value}

theorem mirrors_pure {a : α} (ht : t.InOrder) (h : P t.now.links a) :
    Mirrors t P (pure a) (pure a) :=
  ⟨ht.refl, rfl, fun _ ha => by cases ha; exact h⟩

theorem Mirrors.bind {x : Linked α} {run : Run α} {f : α → Linked β} {g : α → Run β}
    (hx : Mirrors t P x run)
    (hf : ∀ a t', t.Leads t' → P t'.now.links a → Mirrors t' Q (f a) (g a)) :
    Mirrors t Q (x >>= f) (run >>= g) := by
  obtain ⟨hleads, hend, hresult⟩ := hx
  have hbind : (x >>= f) t = Linked.bind x f t := rfl
  generalize hxt : x t = w at hleads hend hresult
  obtain ⟨t', e⟩ := w
  rcases e with _ | e | a
  · refine ⟨?_, ?_, ?_⟩ <;> simp only [hbind, Linked.bind, hxt]
    · exact hleads
    · rw [Run.bind_apply, ← hend]
      rfl
    · nofun
  · refine ⟨?_, ?_, ?_⟩ <;> simp only [hbind, Linked.bind, hxt]
    · exact hleads
    · rw [Run.bind_apply, ← hend]
      rfl
    · nofun
  · obtain ⟨hleads', hend', hresult'⟩ := hf a t' hleads (hresult a rfl)
    refine ⟨?_, ?_, ?_⟩ <;> simp only [hbind, Linked.bind, hxt]
    · exact hleads.trans hleads'
    · rw [hend', Run.bind_apply, ← hend]
      rfl
    · exact hresult'

/-- A situation stays in order with a machine that has the same scopes and the same sequences. -/
theorem leads_of_eq (ht : t.InOrder) {m : Machine} (hscopes : m.scopes = t.now.machine.scopes)
    (hheap : m.heap = t.now.machine.heap) : t.Leads (t.next { t.now with machine := m }) :=
  have hnow := ht.now
  have hlast : Situation.InOrder { t.now with machine := m } :=
    ⟨hnow.rooted, hnow.complete.trans (congrArg Array.size hscopes).symm, hnow.frames,
      hnow.machine.of_eq hscopes hheap, hnow.last⟩
  ⟨ht.next hlast (List.prefix_refl _), rfl, List.prefix_refl _⟩

theorem mirrors_settle (limit : Nat) (held : List Value) (ht : t.InOrder) :
    Mirrors t (fun _ _ => True) (settle limit held) (Run.settle (t.now.stack limit held)) :=
  ⟨leads_of_eq ht (Machine.sweep_scopes ..) (Machine.sweep_heap ..), rfl, fun _ _ => trivial⟩

/-- What keeps a machine in order, and makes no scopes, is done to the machine of
a situation as it is. -/
theorem mirrors_lift (limit : Nat) (held : List Value) (run : Chain → Run α) {R : Links → α → Prop}
    (ht : t.InOrder) (h : ∀ l : Links, t.now.links <+: l → ∀ c, l.Path c →
      (run c).Upholds (l.realm.sized t.now.machine.scopes.size) (R l)) :
    Mirrors t (fun l a => ∀ l', l <+: l' → R l' a) (lift run)
      (run (t.now.stack limit held).chain) := by
  have hnow := ht.now
  have hend (l : Links) (hl : t.now.links <+: l) :
      (run (t.now.stack limit held).chain t.now.machine).Upholds
        (l.realm.sized t.now.machine.scopes.size) (R l) := by
    have hm := Links.obeys_mono hnow.machine hl
    refine h l hl _ ?_ t.now.machine ⟨⟨hm.scopes, rfl⟩, hm.heap⟩
    rw [hnow.chain_stack]
    exact (hnow.rooted.path_chain hnow.current_lt).mono hl
  have hleads {m : Machine} (hm : m.Obeys (t.now.links.realm.sized t.now.machine.scopes.size)) :
      t.Leads (t.next { t.now with machine := m }) :=
    have hlast : Situation.InOrder { t.now with machine := m } :=
      ⟨hnow.rooted, hnow.complete.trans hm.scopes.2.symm, hnow.frames,
        ⟨hm.scopes.1, hm.heap⟩, hnow.last⟩
    ⟨ht.next hlast (List.prefix_refl _), rfl, List.prefix_refl _⟩
  have hself := hend _ (List.prefix_refl _)
  rw [hnow.chain_stack] at hend hself ⊢
  generalize hrun : run (t.now.links.chain t.now.current) t.now.machine = o at hend hself
  cases o with
  | value a m =>
    refine ⟨?_, ?_, ?_⟩ <;> simp only [lift, hrun]
    · exact hleads hself.1
    · rfl
    · intro b hb l hl
      cases hb
      exact (hend l hl).2
  | failure e m =>
    refine ⟨?_, ?_, ?_⟩ <;> simp only [lift, hrun]
    · exact hleads hself.1
    · rfl
    · nofun
  | exhausted =>
    refine ⟨?_, ?_, ?_⟩ <;> simp only [lift, hrun]
    · exact ht.refl
    · rfl
    · nofun

/-- The new scope is linked to the innermost scope of the function, and all
others stay as they are. -/
theorem mirrors_within {c : Closure} {args : List Value} {x : Linked α} (run : CallStack → Run α)
    (ht : t.InOrder) (hc : t.now.links.Path c.scope) (hargs : ∀ v ∈ args, v.Linked t.now.links)
    (hx : ∀ t', t'.InOrder → Mirrors t' P x (run (t'.now.stack limit held))) :
    Mirrors t P (within (Scopes.innermost c.scope) (.ofArguments c.params args) x) (do
      let id ← Run.take fun m => m.newScope (.ofArguments c.params args)
      run ((t.now.stack limit held).push (id :: c.scope))) := by
  have hentered := ht.now.enter hc hargs
  have hgrown :
      t.now.links <+: (t.now.enter (Scopes.innermost c.scope) (.ofArguments c.params args)).links :=
    List.prefix_append ..
  obtain ⟨hleads, hend, hresult⟩ := hx _ (ht.next hentered hgrown)
  have hframes : (t.now.enter (Scopes.innermost c.scope) (.ofArguments c.params args)).frames.tail =
      t.now.frames := rfl
  rw [show (t.next (t.now.enter _ _)).now = t.now.enter _ _ from rfl,
    ht.now.stack_enter hc hargs] at hend
  generalize hxt : x
    (t.next (t.now.enter (Scopes.innermost c.scope) (.ofArguments c.params args))) = w
    at hleads hend hresult
  obtain ⟨t', e⟩ := w
  have hinner := hleads.inOrder.now
  have hback : t'.now.frames.tail = t.now.frames := by
    rw [hleads.frames]
    exact hframes
  have hleft : t'.now.leave.InOrder :=
    ⟨hinner.rooted, hinner.complete, fun id hid =>
      hinner.frames id (List.mem_of_mem_tail hid), hinner.machine,
      hinner.last⟩
  refine ⟨?_, ?_, ?_⟩ <;> simp only [Linked.within, hxt]
  · exact ⟨hleads.inOrder.next hleft (List.prefix_refl _), hback, hgrown.trans hleads.grown⟩
  · rw [Run.bind_apply]
    refine Eq.trans ?_ hend
    rcases e with _ | e | a <;> rfl
  · exact hresult

theorem mirrors_room (ht : t.InOrder) :
    Mirrors t (fun _ _ => True) (room limit)
      (if (t.now.stack limit held).isFull then Run.fail (.recursionLimit limit) else pure ()) := by
  have hfull : (t.now.stack limit held).isFull = decide (limit < t.now.frames.length) := by
    simp [CallStack.isFull, Situation.stack]
  refine ⟨ht.refl, ?_, fun _ _ => trivial⟩
  rw [hfull]
  by_cases h : limit < t.now.frames.length
  · simp only [room, h, if_true, decide_true]
    rfl
  · simp only [room, h, if_false, decide_false]
    rfl

/-- A call of a function does what the rule says, if its body is evaluated as the rule says. -/
theorem mirrors_call {self : List Value → Node → Linked Flow} {ev : Evaluator}
    (hself : MirrorsAll limit self ev) (held : List Value) {c : Closure} {args : List Value}
    (ht : t.InOrder) (hc : t.now.links.Path c.scope) (hargs : ∀ v ∈ args, v.Linked t.now.links) :
    Mirrors t (fun l v => v.Linked l) (call limit self held c args)
      (c.enter ev (t.now.stack limit held) args) := by
  have hcount : Mirrors t (fun _ _ => True) (lift fun _ => c.checkCount args.length)
      (c.checkCount args.length) :=
    have h := mirrors_lift limit held (fun _ => c.checkCount args.length) (R := fun _ _ => True) ht
      fun (l : Links) _ _ _ => c.checkCount_upholds l.realm.reported args.length
    ⟨h.leads, h.outcome, fun _ _ => trivial⟩
  refine hcount.bind fun _ t' hleads _ => ?_
  rw [← hleads.stack_eq ht limit held]
  have hc' := hc.mono hleads.grown
  have hargs' : ∀ v ∈ args, v.Linked t'.now.links := fun v hv => (hargs v hv).mono hleads.grown
  refine Run.guard_bind _ _ _ ▸ (mirrors_room hleads.inOrder).bind fun _ t'' hleads' _ => ?_
  rw [← hleads'.stack_eq hleads.inOrder limit held, ← Run.bind_assoc]
  have hbody :=
    mirrors_within (fun stack => ev stack c.body) hleads'.inOrder (hc'.mono hleads'.grown)
    (fun v hv => (hargs' v hv).mono hleads'.grown) fun t₁ ht₁ => hself t₁ ht₁ held c.body
  refine hbody.bind fun flow t₁ hleads₁ hflow => mirrors_pure hleads₁.inOrder ?_
  exact Realm.value_returnValue hflow

end Linked

open Linked

/-- A plan keeps everything in order if the evaluation of nodes does. -/
theorem Plan.mirrors_linked {α : Type} {limit : Nat} {self : List Value → Node → Linked Flow}
    {ev : Evaluator} {P : Links → α → Prop} (hself : MirrorsAll limit self ev) (held : List Value)
    (p : Plan α) {t : Trace} (ht : t.InOrder)
    (hp : ∀ l : Links, t.now.links <+: l → p.Keeps l.realm (P l)) :
    Mirrors t P (p.linked limit self held) (p.run ev (t.now.stack limit held)) := by
  -- what a step ends with may be kept for later, when there are more links
  induction p generalizing t with
  | done a => exact mirrors_pure ht (hp _ (List.prefix_refl _))
  | own r next ih =>
    have hown := mirrors_lift limit held r (R := fun l b => (next b).Keeps l.realm (P l)) ht
      fun l hl c hc => by
        obtain ⟨Q, hr, hnext⟩ := hp l hl
        exact (hr c hc _).mono hnext
    refine hown.bind fun b t' hleads hb => ?_
    rw [← hleads.stack_eq ht limit held]
    exact ih b hleads.inOrder hb
  | settle more next ih =>
    refine (mirrors_settle limit (more ++ held) ht).bind fun _ t' hleads _ => ?_
    rw [← hleads.stack_eq ht limit held]
    exact ih hleads.inOrder fun l hl => hp l (hleads.grown.trans hl)
  | part more n next ih =>
    refine (hself t ht (more ++ held) n).bind fun flow t' hleads hflow => ?_
    rw [← hleads.stack_eq ht limit held]
    refine ih flow hleads.inOrder fun l hl => ?_
    exact (hp l (hleads.grown.trans hl)).2 flow (Links.flow_mono hflow hl)
  | call more c args next ih =>
    have hnow := hp _ (List.prefix_refl _)
    refine (mirrors_call hself (more ++ held) ht hnow.1 hnow.2.1).bind fun v t' hleads hv => ?_
    rw [← hleads.stack_eq ht limit held]
    refine ih v hleads.inOrder fun l hl => ?_
    exact (hp l (hleads.grown.trans hl)).2.2 v (hv.mono hl)

namespace Linked

theorem mirrors_noted {t : Trace} {x : Linked Flow} {run : Run Flow}
    (hx : Mirrors t (fun l => l.realm.flow) x run) :
    Mirrors t (fun l => l.realm.flow) (noted x) run := by
  have hnote : Mirrors t (fun l => l.realm.flow) (noted x) (run >>= pure) :=
    hx.bind fun f t' hleads hf =>
      have hnow := hleads.inOrder.now
      have hlast : Situation.InOrder { t'.now with last := f } :=
        ⟨hnow.rooted, hnow.complete, hnow.frames, hnow.machine, hf⟩
      ⟨⟨hleads.inOrder.next hlast (List.prefix_refl _), rfl, List.prefix_refl _⟩, rfl,
        fun a ha => Except.ok.inj (Option.some.inj ha) ▸ hf⟩
  rwa [Run.bind_pure] at hnote

/-- Evaluation with links ends as evaluation does, and keeps everything in order. -/
theorem mirrorsAll_eval (limit fuel : Nat) :
    MirrorsAll limit (eval limit fuel) (LineBasic.eval fuel) := by
  induction fuel with
  | zero =>
    intro t ht held n
    have hnone :=
      mirrors_lift limit held (fun _ => Run.exhausted) (R := fun (_ : Links) (_ : Flow) => False) ht
      fun l _ _ _ => .exhausted trivial
    exact ⟨hnone.leads, hnone.outcome, fun a ha => (hnone.result a ha _ (List.prefix_refl _)).elim⟩
  | succ fuel ih =>
    intro t ht held n
    rw [eval_succ, ← (Planned.evaluate fuel n).runs]
    exact mirrors_noted
      (Plan.mirrors_linked ih held _ ht fun l _ => Planned.evaluate_keeps trivial fuel)

/-- So it is with trees one after another. -/
theorem mirrors_evalAll (limit : Nat) (units : List (Nat × Node)) {t : Trace} (ht : t.InOrder)
    (hframes : t.now.frames = [Scopes.global]) :
    t.Leads (evalAll limit units t).1 ∧
      (evalAll limit units t).2 = LineBasic.evalAll limit units t.now.machine := by
  induction units generalizing t with
  | nil => exact ⟨ht.refl, rfl⟩
  | cons unit units ih =>
    obtain ⟨fuel, n⟩ := unit
    obtain ⟨hleads, hend, -⟩ := mirrorsAll_eval limit fuel t ht [] n
    rw [ht.now.stack_bottom hframes] at hend
    simp only [evalAll, LineBasic.evalAll, ← hend]
    generalize eval limit fuel [] n t = w at hleads hend
    obtain ⟨t', e⟩ := w
    rcases e with _ | e | f
    · exact ⟨hleads, rfl⟩
    · obtain ⟨hrest, heq⟩ := ih hleads.inOrder (hleads.frames.trans hframes)
      exact ⟨hleads.trans hrest, congrArg (_ :: ·) heq⟩
    · obtain ⟨hrest, heq⟩ := ih hleads.inOrder (hleads.frames.trans hframes)
      exact ⟨hleads.trans hrest, congrArg (_ :: ·) heq⟩

end Linked

theorem Trace.inOrder_fresh (world : World) (disk : Disk) (input : Input) :
    (fresh world disk input).InOrder := by
  have hplain : ∀ v : Value, (∀ c, v ≠ .closure c) → v.Linked [none] := by
    intro v hv
    cases v with
    | closure c => exact absurd rfl (hv c)
    | _ => trivial
  have hrooted : Links.Rooted [none] := by
    refine ⟨rfl, fun {id} h => ?_, fun {id outer} h => ?_⟩
    · cases id with
      | zero => rfl
      | succ id => cases h
    · cases id with
      | zero => cases h
      | succ id => cases h
  have hmachine : (Machine.fresh world disk input).Obeys (Links.realm [none]).guard :=
    ⟨Machine.hold_fresh hplain world disk input, by simp [Machine.fresh]⟩
  have hsituation : (fresh world disk input).now.InOrder := by
    refine ⟨hrooted, rfl, fun id hid => ?_, hmachine, trivial⟩
    rw [List.mem_singleton.1 hid]
    exact Nat.zero_lt_one
  exact ⟨List.forall_mem_singleton.2 hsituation, List.pairwise_singleton ..⟩

namespace Situation

/-- The scopes of the calls under way, and the ones that functions have captured. -/
def Knows (s : Situation) (id : ScopeId) : Prop :=
  id = s.current ∨ id ∈ s.frames ∨ ∃ c : Closure, s.Holds (.closure c) ∧
    Scopes.innermost c.scope = id

/-- From a scope the links lead to the global scope, without coming to any scope twice, and all
searches along them come to an end. -/
structure OnTree (s : Situation) (id : ScopeId) : Prop where
  starts : (s.links.chain id).head? = some id
  path : s.links.Path (s.links.chain id)
  acyclic : (s.links.chain id).Nodup
  ends : (s.links.chain id).getLast? = some Scopes.global
  lookup : ∀ name, s.links.Climbs (fun i => s.machine.scopes.local? i (Text.upperCase name)) id
    (s.machine.scopes.find? (s.links.chain id) name)
  owner : ∀ name,
    s.links.Climbs (Option.guard fun i => s.machine.scopes.binds i (Text.upperCase name)) id
    (s.machine.scopes.owner? (s.links.chain id) name)
  root : s.links.Climbs s.links.outermost? id (some Scopes.global)

variable {s : Situation} {id : ScopeId}

theorem InOrder.known (h : s.InOrder) (hid : s.Knows id) : id < s.links.length := by
  rcases hid with rfl | hid | ⟨c, hc, rfl⟩
  · exact h.current_lt
  · exact h.frames id hid
  · exact (h.rooted.chain_innermost (h.linked_of_holds hc)).2

theorem InOrder.onTree (h : s.InOrder) (hid : id < s.links.length) : s.OnTree id := by
  have hpath := h.rooted.path_chain hid
  refine ⟨?_, hpath, (h.rooted.pairwise hpath).imp ?_, hpath.getLast?, fun name =>
    h.rooted.climbs hid _, fun name => ?_, h.rooted.climbs_outermost hid⟩
  · obtain ⟨c, hc⟩ := h.rooted.exists_path hid
    rw [h.rooted.chain_eq hc]
    rfl
  · exact fun hlt heq => absurd (heq ▸ hlt) (Nat.lt_irrefl _)
  · rw [Scopes.owner?, List.find?_eq_findSome?_guard]
    exact h.rooted.climbs hid _

end Situation

/-- Trees that are evaluated one after another, from the start, end in the same ways if the scopes
are linked and if functions know only the innermost of their scopes. In no situation on the way has
a link changed that was there before. In all of them a function has captured just the scopes that
the links lead to, and from the scopes of all calls under way and of all functions the links lead to
the global scope, without a cycle. So names are looked up in finitely many scopes, and the outermost
scope is always the global one. -/
theorem scopes_form_a_tree (limit : Nat) (units : List (Nat × Node)) (world : World) (disk : Disk)
    (input : Input) :
    (Linked.evalAll limit units (.fresh world disk input)).2 =
      evalAll limit units (.fresh world disk input) ∧
    ((Linked.evalAll limit units (.fresh world disk input)).1.all.Pairwise fun later earlier =>
      earlier.links <+: later.links) ∧
    ∀ s ∈ (Linked.evalAll limit units (.fresh world disk input)).1.all,
      (∀ c, s.Holds (.closure c) → c.scope = s.links.chain (Scopes.innermost c.scope)) ∧
      ∀ id, s.Knows id → s.OnTree id := by
  obtain ⟨hleads, hends⟩ :=
    Linked.mirrors_evalAll limit units (Trace.inOrder_fresh world disk input) rfl
  refine ⟨hends, hleads.inOrder.growing, fun s hs => ?_⟩
  have h := hleads.inOrder.each s hs
  refine ⟨fun c hc => ?_, fun id hid => h.onTree (h.known hid)⟩
  exact (h.rooted.chain_innermost (h.linked_of_holds hc)).1.symm

end LineBasic
