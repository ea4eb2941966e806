import LineBasic.Proofs.Operators

/-!
# Local variables

Functions share the scopes that they were defined in with whoever defined them, and they are passed
around as values, so a call can get at many scopes that were there before it. It can read them; but
what it binds, it binds in the scope of its own or in the global one. Only `FOR` and `SWAP` rebind
a name where it is bound.

* `Plan.Performs`, `Moment.Performs` : the calls that a run makes, and the
  machines that it makes them on.
* `Node.Reserved` : a tree without `FOR`, in which `SWAP` is not named.
* `Scopes.Spares` : the scopes that were there before, except the global one, are as they were.
* `Law.sparing` : evaluation spares the scopes that were there before, unless one
  of them is the innermost.
* `calls_spare_locals` : so every call spares all of them.
-/

namespace LineBasic

/-! ### Calls of a run -/

section Performing

variable {α : Type} {self : Evaluator} {stack : CallStack} {held : List Value} {c : Closure}
  {args : List Value}

/-- Whoever follows a plan on a machine comes to a call: of `c`, with `args`, on the machine `m`,
and with the values `held` kept aside. -/
inductive Plan.Performs (self : Evaluator) (stack : CallStack) (held : List Value) (c : Closure)
    (args : List Value) (m : Machine) : Plan α → Machine → Prop
  | here {next : Value → Plan α} : Performs self stack held c args m (.call held c args next) m
  | own {β : Type} {r : Chain → Run β} {next : β → Plan α} {b : β} {m₁ m₂ : Machine}
      (ends : r stack.chain m₁ = .value b m₂)
      (later : Performs self stack held c args m (next b) m₂) :
      Performs self stack held c args m (.own r next) m₁
  | settle {aside : List Value} {next : Plan α} {m₁ : Machine}
      (later : Performs self stack held c args m next (m₁.sweep (stack.hold aside).roots)) :
      Performs self stack held c args m (.settle aside next) m₁
  | part {aside : List Value} {n : Node} {next : Flow → Plan α} {f : Flow} {m₁ m₂ : Machine}
      (ends : self (stack.hold aside) n m₁ = .value f m₂)
      (later : Performs self stack held c args m (next f) m₂) :
      Performs self stack held c args m (.part aside n next) m₁
  | call {aside : List Value} {c' : Closure} {args' : List Value} {next : Value → Plan α}
      {v : Value} {m₁ m₂ : Machine} (ends : c'.enter self (stack.hold aside) args' m₁ = .value v m₂)
      (later : Performs self stack held c args m (next v) m₂) :
      Performs self stack held c args m (.call aside c' args' next) m₁

/-- The rule at a moment calls a function, under the calls of the moment. -/
def Moment.Performs (x : Moment) (held : List Value) (c : Closure) (args : List Value)
    (m : Machine) : Prop :=
  ∃ fuel, x.fuel = fuel + 1 ∧
    (Planned.evaluate fuel x.node).plan.Performs (eval fuel) x.stack held c args m x.machine

/-- The end of the call. -/
def Moment.callOutcome (x : Moment) (held : List Value) (c : Closure) (args : List Value)
    (m : Machine) :
    Outcome Value :=
  c.enter (eval (x.fuel - 1)) (x.stack.hold held) args m

/-- What is called on the way is allowed by the law, and so is the machine at that time. -/
theorem Plan.Keeps.performs {L : Law} {P : α → Prop} {p : Plan α} {m m₁ : Machine}
    (hp : p.Keeps L.toRealm P) (hself : self.Upholds L) (hchain : L.chain stack.chain)
    (hm : m₁.Obeys L.guard) (h : p.Performs self stack held c args m m₁) :
    L.value (.closure c) ∧ (∀ v ∈ args, L.value v) ∧ m.Obeys L.guard := by
  induction h with
  | here => exact ⟨hp.1, hp.2.1, hm⟩
  | own ends _ ih =>
    obtain ⟨Q, hr, hnext⟩ := hp
    have hend := Run.Upholds.of_sized (hr _ hchain) _ hm
    rw [ends] at hend
    exact ih (hnext _ hend.2) hend.1
  | @settle aside next m₁ _ ih =>
    exact ih hp (Run.settle_upholds (stack.hold aside) m₁ hm).1
  | @part aside n next f m₁ m₂ ends _ ih =>
    have hend := hself (stack.hold aside) n hchain (L.follow hp.1) m₁ hm
    rw [ends] at hend
    exact ih (hp.2 _ hend.2) hend.1
  | @call aside c' args' next v m₁ m₂ ends _ ih =>
    have hcall : (c'.enter self (stack.hold aside) args').Upholds L.guard L.value :=
      Closure.enter_upholds hp.1 hp.2.1 fun _ id hid => hself _ _ hid (L.body hp.1)
    have hend := hcall _ hm
    rw [ends] at hend
    exact ih (hp.2.2 _ hend.2) hend.1

theorem Moment.Lawful.performs {L : Law} {x : Moment} {m : Machine} (hx : x.Lawful L)
    (h : x.Performs held c args m) :
    L.value (.closure c) ∧ (∀ v ∈ args, L.value v) ∧ m.Obeys L.guard := by
  obtain ⟨fuel, -, h⟩ := h
  exact (Planned.evaluate_keeps hx.node fuel).performs (eval_upholds fuel) hx.chain hx.machine h

namespace Plan.Performs

variable {β : Type} {p : Plan α} {f : α → Plan β} {m m₁ m₂ : Machine} {a : α}

theorem bind (h : p.Performs self stack held c args m m₁) :
    (p.bind f).Performs self stack held c args m m₁ := by
  induction h with
  | here => exact .here
  | own ends _ ih => exact .own ends ih
  | settle _ ih => exact .settle ih
  | part ends _ ih => exact .part ends ih
  | call ends _ ih => exact .call ends ih

/-- What is performed after the end of a plan. -/
theorem after (ends : p.run self stack m₁ = .value a m₂)
    (h : (f a).Performs self stack held c args m m₂) :
    (p.bind f).Performs self stack held c args m m₁ := by
  induction p generalizing m₁ with
  | done b =>
    cases ends
    exact h
  | own r next ih =>
    rw [run, Run.bind_apply] at ends
    split at ends
    · next b m' hr => exact .own hr (ih b ends)
    · cases ends
    · cases ends
  | settle aside next ih => exact .settle (ih ends)
  | part aside n next ih =>
    rw [run, Run.bind_apply] at ends
    split at ends
    · next flow m' hn => exact .part hn (ih flow ends)
    · cases ends
    · cases ends
  | call aside c' args' next ih =>
    rw [run, Run.bind_apply] at ends
    split at ends
    · next v m' hcall => exact .call hcall (ih v ends)
    · cases ends
    · cases ends

end Plan.Performs

/-- The function of the program that a value is. -/
def Value.closure? : Value → Option Closure
  | .closure c => some c
  | _ => none

theorem Value.closure?_eq_some {v : Value} : v.closure? = some c ↔ v = .closure c := by
  cases v <;> simp [closure?]

/-- The value that a run ends with, and its machine. -/
def Outcome.value? : Outcome α → Option (α × Machine)
  | .value a m => some (a, m)
  | .failure _ _ => none
  | .exhausted => none

theorem Outcome.value?_eq_some {o : Outcome α} {a : α} {m : Machine} :
    o.value? = some (a, m) ↔ o = .value a m := by
  cases o <;> simp [value?]

/-- A function that is called by its name is called on the machine that evaluating
the arguments leads to. -/
theorem Moment.performs_of_call {fuel : Nat} {n : Node} {target : String} {v : Value}
    {m m' : Machine} (kind : n.kind = .call target)
    (found : m.scopes.find? stack.chain target = some v) (function : v.closure? = some c)
    (count : n.children.length = c.params.length)
    (values : ((eval fuel).values (stack.hold [v]) n.children m).value? = some (args, m')) :
    Moment.Performs ⟨fuel + 1, stack, n, m⟩ [] c args m' := by
  obtain ⟨_, nodes, body⟩ := n
  obtain rfl : _ = NodeKind.call target := kind
  obtain rfl := Value.closure?_eq_some.1 function
  have count : nodes.length = c.params.length := count
  have hlookup : (Planned.own fun chain => Run.lookup chain target).plan.run (eval fuel) stack m =
      .value (.closure c) m := by
    rw [Planned.runs, Run.lookup, found]
  have hcount :
      (Planned.const (c.checkCount nodes.length)).plan.run (eval fuel) stack m = .value () m := by
    rw [Planned.runs, Closure.checkCount, if_pos count]
    rfl
  have hvalues : ((Planned.values nodes).hold [.closure c]).plan.run (eval fuel) stack m =
      .value args m' := by
    rw [Planned.runs, ← Outcome.value?_eq_some]
    exact values
  exact ⟨fuel, rfl, .bind (.after hlookup (.after hcount (.after hvalues .here)))⟩

end Performing

/-! ### Trees that rebind nothing from outside -/

/-- What rebinds a name in the scope that owns it: `FOR`, and whatever looks `SWAP` up. -/
def NodeKind.rebinds : NodeKind → Bool
  | .control (.forLoop _) => true
  | k => k.sought?.any fun x => Text.upperCase x = "SWAP"

/-- There is no `FOR` in the tree, and no name `SWAP`. -/
def Node.Reserved (n : Node) : Prop := ∀ d ∈ n.nodes, d.kind.rebinds = false

instance (n : Node) : Decidable n.Reserved :=
  inferInstanceAs (Decidable (∀ d ∈ n.nodes, d.kind.rebinds = false))

namespace Node.Reserved

variable {n : Node} {x : String}

theorem child {c : Node} (h : n.Reserved) (hc : c ∈ n.children) : c.Reserved :=
  (forall_nodes.1 h).2 c hc

theorem ne_forLoop (h : n.Reserved) : n.kind ≠ .control (.forLoop x) := by
  intro hkind
  have hroot := (forall_nodes.1 h).1
  rw [hkind] at hroot
  cases hroot

theorem sought_ne (h : n.Reserved) (hx : n.kind.sought? = some x) : Text.upperCase x ≠ "SWAP" := by
  intro hswap
  have hroot := (forall_nodes.1 h).1
  unfold NodeKind.rebinds at hroot
  split at hroot
  · cases hroot
  · simp [hx, hswap] at hroot

end Node.Reserved

/-- Any value but `SWAP`, and no function of the program that gets hold of it or has a `FOR`. -/
def Value.Reserved : Value → Prop
  | .builtin b _ => b ≠ .swap
  | .closure c => c.body.Reserved ∧ c.scope.getLast? = some Scopes.global
  | _ => True

theorem Value.reserved_of_isPlain {v : Value} (h : v.IsPlain) : v.Reserved := by
  cases v with
  | builtin b serial => cases h
  | closure c => cases h
  | _ => trivial

theorem Bundle.ne_swap {library : Bundle} {b : Builtin} (h : b ∈ library.contents) : b ≠ .swap := by
  revert b
  cases library <;> decide

/-- At the start `SWAP` is bound to its own name only. -/
theorem Machine.reserved_initialBindings {key : String} {v : Value}
    (h : initialBindings.find? key = some v) : key = "SWAP" ∨ v.Reserved := by
  obtain ⟨l, r, hes, -⟩ := List.lookup_eq_some_iff.1 h
  have hmem : (key, v) ∈ initialBindings.entries := by simp [hes]
  rcases List.mem_append.1 hmem with hmem | hmem
  · obtain ⟨b, -, heq⟩ := List.mem_map.1 hmem
    cases heq
    by_cases hb : b = .swap
    · exact .inl (by rw [hb]; rfl)
    · exact .inr hb
  · simp only [List.mem_cons, Prod.mk.injEq, List.not_mem_nil, or_false] at hmem
    rcases hmem with ⟨-, rfl⟩ | ⟨-, rfl⟩ | ⟨-, rfl⟩ | ⟨-, rfl⟩ <;> exact .inr trivial

/-! ### Scopes that are spared -/

namespace Scopes

/-- All scopes that were there before are there, and all but the global one are as they were. -/
structure Spares (before after : Scopes) : Prop where
  size : before.size ≤ after.size
  same : ∀ id < before.size, id ≠ global → after[id]? = before[id]?

/-- A scope that may change: the global one, or one that was not there before. -/
def Free (before : Scopes) (id : ScopeId) : Prop := id = global ∨ before.size ≤ id

namespace Spares

variable {before s : Scopes}

theorem refl (s : Scopes) : s.Spares s := ⟨Nat.le_refl _, fun _ _ _ => rfl⟩

theorem define (h : before.Spares s) {id : ScopeId} (free : before.Free id) (x : String)
    (v : Value) :
    before.Spares (s.define id x v) := by
  refine ⟨by simpa [Scopes.define] using h.size, fun i hi hne => ?_⟩
  have hother : id ≠ i := by
    rintro rfl
    rcases free with hglobal | hnew
    · exact hne hglobal
    · omega
  rw [Scopes.define, Array.getElem?_modify, if_neg hother]
  exact h.same i hi hne

theorem push (h : before.Spares s) (b : Bindings) : before.Spares (s.push b) := by
  have hsize := h.size
  refine ⟨by simp only [Array.size_push]; omega, fun i hi hne => ?_⟩
  rw [Array.getElem?_push, if_neg (by omega)]
  exact h.same i hi hne

end Spares

/-- Names are bound in scopes that may change. -/
structure InFree (before : Scopes) (c : Chain) : Prop where
  outer : c.getLast? = some global
  inner : before.Free (innermost c)

theorem InFree.outermost_eq {before : Scopes} {c : Chain} (h : before.InFree c) :
    outermost c = global := by
  simp [outermost, List.getLastD_eq_getLast?, h.outer]

/-- What is found under another name than `SWAP` is reserved, and the scopes
from before are spared. -/
structure Sparing (before s : Scopes) : Prop where
  values : ∀ {id key v}, s.local? id key = some v → key = "SWAP" ∨ v.Reserved
  spares : before.Spares s

namespace Sparing

variable {before s : Scopes} {v : Value}

theorem define (h : before.Sparing s) {id : ScopeId} (free : before.Free id) (hv : v.Reserved)
    (x : String) : before.Sparing (s.define id x v) := by
  refine ⟨fun {i key w} hw => ?_, h.spares.define free x v⟩
  rcases local?_of_define hw with rfl | hw
  · exact .inr hv
  · exact h.values hw

theorem assign (h : before.Sparing s) {c : Chain} (hc : before.InFree c) (hv : v.Reserved)
    (x : String) : before.Sparing (s.assign c x v) := by
  unfold Scopes.assign
  split
  · exact h.define (.inl hc.outermost_eq) hv x
  · exact h.define hc.inner hv x

theorem push (h : before.Sparing s) (params : List String) {args : List Value}
    (hargs : ∀ v ∈ args, v.Reserved) : before.Sparing (s.push (.ofArguments params args)) := by
  refine ⟨fun {i key w} hw => ?_, h.spares.push _⟩
  rw [local?_push] at hw
  split at hw
  · exact .inr (hargs _ (Bindings.find?_ofArguments hw).1)
  · exact h.values hw

end Sparing
end Scopes

/-- The law that only the global scope and scopes that were not there before change. -/
def Law.sparing (before : Scopes) : Law where
  node := Node.Reserved
  chain := before.InFree
  value := Value.Reserved
  scopes := before.Sparing
  plain := Value.reserved_of_isPlain
  child h hc := h.child hc
  top := ⟨rfl, .inl rfl⟩
  found {_ x _ _ _} h hx _ hs hv := by
    obtain ⟨id, hid⟩ := Scopes.exists_local?_of_find? hv
    exact (hs.values hid).resolve_left (h.sought_ne hx)
  assigned _ _ hc hs hv := hs.assign hc hv _
  declared _ _ hc hs hv := hs.define hc.inner hv _
  counted h hkind := absurd hkind h.ne_forLoop
  swapped h := absurd rfl h
  closed {n body _ name params serial c s} h _ hbody hc hs := by
    obtain ⟨i, -, hi⟩ := Option.bind_eq_some_iff.1 hbody
    have hvalue : Value.Reserved (.closure ⟨serial, name, params, body, c⟩) :=
      ⟨h.child (List.mem_of_getElem? hi), hc.outer⟩
    exact hs.define hc.inner hvalue name
  body h := h.1
  entered {c _ s} h hargs hs := by
    refine ⟨hs.push _ hargs, ?_, .inr hs.spares.size⟩
    rw [List.getLast?_cons, h.2]
    rfl
  installed {_ b serial _} hb hs :=
    hs.define (v := .builtin b serial) (.inl rfl) (Bundle.ne_swap hb) _

theorem Machine.obeys_sparing (world : World) (disk : Disk) (input : Input) :
    (fresh world disk input).Obeys (Law.sparing #[]).guard := by
  refine ⟨⟨fun {id key v} hv => ?_, ⟨Nat.zero_le _, fun _ h => absurd h (Nat.not_lt_zero _)⟩⟩,
    by simp [fresh]⟩
  rw [local?_fresh] at hv
  split at hv
  · exact reserved_initialBindings hv
  · cases hv

/-- Whatever was spared so far, from now on all scopes that are there are spared. -/
theorem Machine.Obeys.sparing_now {before : Scopes} {m : Machine}
    (h : m.Obeys (Law.sparing before).guard) :
    m.Obeys (Law.sparing m.scopes).guard :=
  ⟨⟨h.scopes.values, .refl _⟩, h.heap⟩

/-- In a program without `FOR` in which `SWAP` is not named, a call leaves all local variables as
they are: at every call of every run, whether it returns or fails, the scopes that were there before
it are there after it, and all of them but the global one bind the same names to the same values. -/
theorem calls_spare_locals {tree : Node} (reserved : tree.Reserved) {limit : Nat} {start x : Moment}
    (starts : start.Starts tree limit) (visits : start.Visits x) {c : Closure} {args : List Value}
    {held : List Value} {m m' : Machine} (performs : x.Performs held c args m)
    (ends : (x.callOutcome held c args m).machine? = some m') : m.scopes.Spares m'.scopes := by
  have hx : x.Lawful (Law.sparing #[]) :=
    (starts.lawful Machine.obeys_sparing reserved).visits visits
  obtain ⟨hc, hargs, hm⟩ := hx.performs performs
  -- the body is evaluated in a scope of its own, so all scopes that are there now are spared
  let L : Law := .sparing m.scopes
  have hcall : (c.enter (eval (x.fuel - 1)) (x.stack.hold held) args).Upholds L.guard L.value :=
    Closure.enter_upholds hc hargs fun _ id hid => eval_upholds (L := L) _ _ c.body hid hc.1
  exact ((hcall m hm.sparing_now).machine ends).scopes.spares

/-- A function adds its argument to a variable of the call that made the function. It reads the
variable, but what it binds is a variable of its own: after the call the other one is as it was. -/
theorem calls_spare_locals_captured :
    let source :=
      "FUNCTION MAKE(N)\nFUNCTION ADD(X)\nN = N + X\nRETURN N\nEND FUNCTION\nRETURN ADD\n" ++
      "END FUNCTION\nF = MAKE(2)\nF(3)"
    ∃ (tree : Node) (start : Moment) (c : Closure) (args : List Value) (m m' : Machine),
      Reader.program? [] [source] = some tree ∧ tree.Reserved ∧ start.Starts tree 256 ∧
      start.Performs [] c args m ∧ c.scope = [1, 0] ∧
        (start.callOutcome [] c args m).machine? = some m' ∧
      m.scopes.size = 2 ∧ m'.scopes.size = 3 ∧ m.scopes.Spares m'.scopes ∧
      ((m'.scopes.local? 1 "N").map fun v => v.display m'.heap) = some "2" ∧
      ((m'.scopes.local? 2 "N").map fun v => v.display m'.heap) = some "5" := by
  intro source
  let stack : CallStack := .bottom 256
  let text (m : Machine) (id : ScopeId) : Option String :=
    (m.scopes.local? id "N").map fun v => v.display m.heap
  have hrun : (Reader.program? [] [source]).any (fun tree => tree.Reserved ∧
      tree.children[0]?.any fun make => tree.children[1]?.any fun keep =>
        tree.children[2]?.any fun n =>
        (eval 20 stack make (.fresh .still .empty (.ofOctets []))).machine?.any fun m₁ =>
          (eval 20 stack keep m₁).machine?.any fun m =>
            (m.scopes.find? stack.chain "F").any fun v =>
            v.closure?.any fun c =>
              ((eval 20).values (stack.hold [v]) n.children m).value?.any fun r =>
              n.kind = .call "F" ∧ n.children.length = c.params.length ∧ c.scope = [1, 0] ∧
                r.2.scopes.size = 2 ∧ (c.enter (eval 20) stack r.1 r.2).machine?.any fun m' =>
                  m'.scopes.size = 3 ∧ text m' 1 = some "2" ∧ text m' 2 = some "5") = true := by
    decide +kernel
  simp only [Option.any_eq_true, decide_eq_true_eq] at hrun
  obtain ⟨tree, read, reserved, make, hmake, keep, hkeep, n, hn, m₁, hm₁, m₂, hm₂, v, hfound, c, hc,
    ⟨args, m⟩, hvalues, hkind, hcount, hscope, hsize, m', hends, hsize', htwo, hfive⟩ := hrun
  have hunit {k : Node} {i : Nat} (h : tree.children[i]? = some k) : k ∈ tree :: tree.children :=
    .tail _ (List.mem_of_getElem? h)
  have hbefore : m₂.Executed 256 (tree :: tree.children) :=
    ((Machine.Executed.fresh .still .empty (.ofOctets [])).next (hunit hmake) hm₁).next
      (hunit hkeep) hm₂
  have starts : Moment.Starts tree 256 ⟨21, stack, n, m₂⟩ := ⟨rfl, hunit hn, hbefore⟩
  have performs := Moment.performs_of_call hkind hfound hc hcount hvalues
  have spares := calls_spare_locals reserved starts .refl performs hends
  exact ⟨tree, _, c, args, m, m', read, reserved, starts, performs, hscope, hends, hsize,
    hsize', spares, htwo, hfive⟩

end LineBasic
