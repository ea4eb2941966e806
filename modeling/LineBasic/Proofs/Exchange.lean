import LineBasic.Proofs.CountedLoops

/-!
# Variables that are exchanged

`SWAP` looks two names up along the chain, and then binds each of them to the value of the
other one, in the innermost scope that has a variable of that name. Neither of these bindings
adds a name to a scope, so the second one goes to the scope that had the variable before the
first one. A binding is made in its place among the others, so that exchanging once more
restores the scopes as they were.

* `Bindings.insert_self`, `Bindings.insert_insert`, `Bindings.insert_comm` : bindings
  of names that are bound.
* `Scopes.define_self`, `Scopes.define_define`, `Scopes.define_comm` : the same in the scopes.
* `Scopes.owner?_define` : rebinding a variable does not change which scope owns a name.
* `Scopes.exchanged` : the scopes with two variables exchanged. `Scopes.local?_exchanged` : all of
  their variables; `Scopes.exchanged_exchanged` : exchanging twice.
* `Exchange.eval_bound`, `Exchange.eval_again` : what `SWAP` does, and what it does when
  it is called again. `Exchange.eval_first_unbound`, `Exchange.eval_second_unbound` :
  names that are not bound.
* `swap_exchanges_in_place` : exchanging any two names, in any chain.
-/

namespace LineBasic

/-! ### Bindings -/

namespace Bindings

variable {b : Bindings} {es : List (String × Value)} {x y : String} {v w : Value}

theorem replace_self (h : es.lookup x = some v) : replace x v es = es := by
  induction es with
  | nil => rfl
  | cons e es ih =>
    obtain ⟨k, u⟩ := e
    by_cases hk : k = x
    · subst hk
      simp only [List.lookup_cons, beq_self_eq_true, Option.some.injEq] at h
      simp [replace, h]
    · have hne : (x == k) = false := by simp [Ne.symm hk]
      simp only [List.lookup_cons, hne] at h
      simp [replace, hk, ih h]

theorem replace_replace (x : String) (v w : Value) (es : List (String × Value)) :
    replace x v (replace x w es) = replace x v es := by
  induction es with
  | nil => rfl
  | cons e es ih =>
    by_cases hk : e.1 = x
    · simp [replace, hk]
    · simp [replace, hk, ih]

theorem replace_comm (h : x ≠ y) (v w : Value) (es : List (String × Value)) :
    replace x v (replace y w es) = replace y w (replace x v es) := by
  induction es with
  | nil => rfl
  | cons e es ih =>
    by_cases hx : e.1 = x
    · have hy : e.1 ≠ y := fun hy => h (hx.symm.trans hy)
      simp [replace, hx, h]
    · by_cases hy : e.1 = y
      · simp [replace, hy, Ne.symm h]
      · simp [replace, hx, hy, ih]

theorem insert_of_binds (h : b.binds x = true) (v : Value) :
    b.insert x v = ⟨replace x v b.entries⟩ := if_pos h

/-- Rebinding a name binds the same names. -/
theorem binds_insert (h : b.binds x = true) (v : Value) (y : String) :
    (b.insert x v).binds y = b.binds y := by
  by_cases hy : y = x
  · rw [hy, h, binds, find?_insert_self]
    rfl
  · rw [binds, find?_insert_of_ne b v hy, binds]

theorem insert_self (h : b.find? x = some v) : b.insert x v = b := by
  have hbinds : b.binds x = true := by rw [binds, h]; rfl
  rw [insert_of_binds hbinds, replace_self h]

theorem insert_insert (h : b.binds x = true) (v w : Value) :
    (b.insert x w).insert x v = b.insert x v := by
  rw [insert_of_binds (by rwa [binds_insert h]), insert_of_binds h, insert_of_binds h,
    replace_replace]

theorem insert_comm (hne : x ≠ y) (hx : b.binds x = true) (hy : b.binds y = true) (v w : Value) :
    (b.insert x v).insert y w = (b.insert y w).insert x v := by
  have hx' : (b.insert y w).binds x = true := by rwa [binds_insert hy]
  have hy' : (b.insert x v).binds y = true := by rwa [binds_insert hx]
  rw [insert_of_binds hx', insert_of_binds hy', insert_of_binds hx, insert_of_binds hy,
    replace_comm hne]

end Bindings

/-! ### Scopes -/

namespace Scopes

variable {s : Scopes} {c : Chain} {id i o p : ScopeId} {x y key : String} {u v w : Value}

theorem getElem?_define (s : Scopes) (id : ScopeId) (x : String) (v : Value) (i : ScopeId) :
    (s.define id x v)[i]? =
      if id = i then s[i]?.map fun b => b.insert (Text.upperCase x) v else s[i]? :=
  Array.getElem?_modify

theorem binds_of_getElem? {b : Bindings} (h : s[id]? = some b) : s.binds id key = b.binds key := by
  rw [binds, local?, h]
  rfl

theorem exists_of_binds (h : s.binds id key = true) :
    ∃ b, s[id]? = some b ∧ b.binds key = true := by
  obtain ⟨b, hb⟩ : ∃ b, s[id]? = some b := ⟨_, Array.getElem?_eq_getElem (lt_size_of_binds h)⟩
  exact ⟨b, hb, by rwa [binds_of_getElem? hb] at h⟩

theorem binds_of_local? (h : s.local? id key = some v) : s.binds id key = true := by
  rw [binds, h]
  rfl

/-- All variables after a binding. -/
theorem local?_define (stored : id < s.size) (i : ScopeId) (key : String) :
    (s.define id x v).local? i key = if i = id ∧
    key = Text.upperCase x then some v else s.local? i key := by
  by_cases hi : i = id
  · subst hi
    by_cases hkey : key = Text.upperCase x
    · rw [if_pos ⟨rfl, hkey⟩, hkey, local?_define_self stored]
    · rw [if_neg fun h => hkey h.2, local?_define_of_ne hkey]
  · rw [if_neg fun h => hi h.1, local?_define_other hi]

/-- Rebinding a variable binds the same names. -/
theorem binds_define (bound : s.binds id (Text.upperCase x) = true) (v : Value) (i : ScopeId)
    (key : String) :
    (s.define id x v).binds i key = s.binds i key := by
  rw [binds, local?_define (lt_size_of_binds bound)]
  split
  · next h => rw [h.1, h.2, bound]; rfl
  · rfl

/-- Rebinding a variable does not change which scope owns a name. -/
theorem owner?_define (bound : s.binds id (Text.upperCase x) = true) (v : Value) (c : Chain)
    (y : String) :
    (s.define id x v).owner? c y = s.owner? c y := by
  simp only [owner?, binds_define bound]

theorem define_self (h : s.local? id (Text.upperCase x) = some v) : s.define id x v = s := by
  refine Array.ext_getElem? fun i => ?_
  rw [getElem?_define]
  split
  · next hi =>
    subst hi
    obtain ⟨b, hb, hfind⟩ := Option.bind_eq_some_iff.1 h
    rw [hb, Option.map_some, Bindings.insert_self hfind]
  · rfl

theorem define_define (bound : s.binds id (Text.upperCase x) = true) (v w : Value) :
    (s.define id x w).define id x v = s.define id x v := by
  obtain ⟨b, hb, hbinds⟩ := exists_of_binds bound
  refine Array.ext_getElem? fun i => ?_
  simp only [getElem?_define]
  split
  · next hi =>
    subst hi
    rw [hb]
    exact congrArg some (Bindings.insert_insert hbinds v w)
  · rfl

/-- Bindings of different variables can be made in either order. -/
theorem define_comm (hne : ¬(id = o ∧ Text.upperCase x = Text.upperCase y))
    (hx : s.binds id (Text.upperCase x) = true) (hy : s.binds o (Text.upperCase y) = true)
    (v w : Value) :
    (s.define id x v).define o y w = (s.define o y w).define id x v := by
  refine Array.ext_getElem? fun i => ?_
  simp only [getElem?_define]
  by_cases hi : id = i
  · by_cases ho : o = i
    · subst hi
      subst ho
      obtain ⟨b, hb, hbinds⟩ := exists_of_binds hx
      rw [binds_of_getElem? hb] at hy
      simp only [hb, if_true, Option.map_some]
      exact congrArg some (Bindings.insert_comm (fun h => hne ⟨rfl, h⟩) hbinds hy v w)
    · simp only [if_pos hi, if_neg ho]
  · simp only [if_neg hi]

/-! ### Two variables exchanged -/

/-- The scopes after the variables of two names have been exchanged, which had
the values `v` and `w`. -/
def exchanged (s : Scopes) (c : Chain) (x y : String) (v w : Value) : Scopes :=
  (s.assignShared c x w).assignShared c y v

/-- ASCII case does not count. -/
theorem exchanged_spelling {x' y' : String} (hx : Text.upperCase x' = Text.upperCase x)
    (hy : Text.upperCase y' = Text.upperCase y) (s : Scopes) (c : Chain) (v w : Value) :
    s.exchanged c x' y' v w = s.exchanged c x y v w := by
  simp only [exchanged, assignShared, define, owner?, hx, hy]

theorem assignShared_of_owner (h : s.owner? c x = some o) (v : Value) :
    s.assignShared c x v = s.define o x v := by
  rw [assignShared, h, Option.getD_some]

/-- Each binding goes to the scope that has owned the name before. -/
theorem exchanged_eq (hx : s.owner? c x = some o) (hy : s.owner? c y = some p) (v w : Value) :
    s.exchanged c x y v w = (s.define o x w).define p y v := by
  rw [exchanged, assignShared_of_owner hx,
    assignShared_of_owner ((owner?_define (binds_of_owner hx) w c y).trans hy)]

theorem owner?_exchanged (hx : s.owner? c x = some o) (hy : s.owner? c y = some p) (v w : Value)
    (z : String) :
    (s.exchanged c x y v w).owner? c z = s.owner? c z := by
  have hbinds : (s.define o x w).binds p (Text.upperCase y) = true := by
    rw [binds_define (binds_of_owner hx), binds_of_owner hy]
  rw [exchanged_eq hx hy, owner?_define hbinds, owner?_define (binds_of_owner hx)]

/-- All variables after the exchange. -/
theorem local?_exchanged (hx : s.owner? c x = some o) (hy : s.owner? c y = some p) (v w : Value)
    (i : ScopeId) (key : String) : (s.exchanged c x y v w).local? i key =
      if i = p ∧ key = Text.upperCase y then some v
      else if i = o ∧ key = Text.upperCase x then some w else s.local? i key := by
  have ho := lt_size_of_binds (binds_of_owner hx)
  have hp := lt_size_of_binds (binds_of_owner hy)
  rw [exchanged_eq hx hy, local?_define (by rwa [size_define]), local?_define ho]

/-- Two names for one variable have one value. -/
theorem eq_of_same_owner (hx : s.find? c x = some v) (hy : s.find? c y = some w)
    (ho : s.owner? c x = some o) (hp : s.owner? c y = some p)
    (same : o = p ∧ Text.upperCase x = Text.upperCase y) : v = w := by
  rw [find?_eq_local?_owner ho, same.1, same.2, ← find?_eq_local?_owner hp, hy] at hx
  exact (Option.some.inj hx).symm

/-- Each name has the value of the other one. -/
theorem find?_exchanged (hx : s.find? c x = some v) (hy : s.find? c y = some w) :
    (s.exchanged c x y v w).find? c x = some w ∧ (s.exchanged c x y v w).find? c y = some v := by
  obtain ⟨o, ho⟩ := exists_owner_of_find? hx
  obtain ⟨p, hp⟩ := exists_owner_of_find? hy
  rw [find?_eq_local?_owner ((owner?_exchanged ho hp v w x).trans ho), local?_exchanged ho hp,
    find?_eq_local?_owner ((owner?_exchanged ho hp v w y).trans hp), local?_exchanged ho hp]
  constructor
  · split
    · next same => rw [eq_of_same_owner hx hy ho hp same]
    · rw [if_pos ⟨rfl, rfl⟩]
  · rw [if_pos ⟨rfl, rfl⟩]

/-- A name that neither of the two variables has is found with the value that it had. -/
theorem find?_exchanged_other {z : String} (hx : s.owner? c x = some o) (hy : s.owner? c y = some p)
    (hzx : Text.upperCase z ≠ Text.upperCase x) (hzy : Text.upperCase z ≠ Text.upperCase y)
    (v w : Value) :
    (s.exchanged c x y v w).find? c z = s.find? c z := by
  simp only [find?, local?_exchanged hx hy, hzx, hzy, and_false, if_false]

/-- Exchanging twice restores the scopes. -/
theorem exchanged_exchanged (hx : s.find? c x = some v) (hy : s.find? c y = some w) :
    (s.exchanged c x y v w).exchanged c x y w v = s := by
  obtain ⟨o, ho⟩ := exists_owner_of_find? hx
  obtain ⟨p, hp⟩ := exists_owner_of_find? hy
  have hlx : s.local? o (Text.upperCase x) = some v := by rw [← find?_eq_local?_owner ho, hx]
  have hly : s.local? p (Text.upperCase y) = some w := by rw [← find?_eq_local?_owner hp, hy]
  have hbx := binds_of_local? hlx
  have hby := binds_of_local? hly
  rw [exchanged_eq ((owner?_exchanged ho hp v w x).trans ho)
    ((owner?_exchanged ho hp v w y).trans hp),
    exchanged_eq ho hp]
  by_cases same : o = p ∧ Text.upperCase x = Text.upperCase y
  · -- one variable, which is bound to its own value each time
    obtain rfl := eq_of_same_owner hx hy ho hp same
    simp only [define_self hlx, define_self hly]
  · have hby' : (s.define o x w).binds p (Text.upperCase y) = true := by rwa [binds_define hbx]
    have hbx' : (s.define o x w).binds o (Text.upperCase x) = true := by rwa [binds_define hbx]
    -- the binding of `y` is moved to the other one
    calc (((s.define o x w).define p y v).define o x v).define p y w
        = (((s.define o x w).define o x v).define p y v).define p y w := by
          rw [define_comm (fun h => same ⟨h.1.symm, h.2.symm⟩) hby' hbx']
      _ = (s.define p y v).define p y w := by rw [define_define hbx, define_self hlx]
      _ = s := by rw [define_define hby, define_self hly]

end Scopes

/-! ### Running `SWAP` -/

namespace Exchange

variable {stack : CallStack} {m : Machine} {f x y : String} {serial : Nat} {v w : Value}

/-- A name that is bound to `SWAP`, with two names after it, exchanges them. -/
theorem eval_eq (called : m.scopes.find? stack.chain f = some (.builtin .swap serial)) (fuel : Nat)
    (ns : List Node) :
    eval (fuel + 1) stack (.call f ns) m =
      (do return Flow.value (← exchange (eval fuel) stack ns) : Run Flow) m := by
  have hcall : callName (eval fuel) stack f ns m = exchange (eval fuel) stack ns m := by
    rw [callName, Run.bind_of_value (Run.lookup_of_find? called)]
    rfl
  show (callName (eval fuel) stack f ns >>= fun v => pure (Flow.value v)) m = _
  rw [Run.bind_apply, Run.bind_apply, hcall]

/-- The value of a name. -/
theorem value_ofName (h : m.scopes.find? stack.chain x = some v) (fuel : Nat) :
    (eval (fuel + 1)).value stack (.ofName x) m = .value v m := by
  rw [Evaluator.value, Run.bind_of_value (eval_ofName h fuel)]
  rfl

/-- The value of a name that is not bound. -/
theorem value_ofName_unbound (h : m.scopes.find? stack.chain x = none) (fuel : Nat) :
    (eval (fuel + 1)).value stack (.ofName x) m =
      .failure (.undefinedVariable (Text.upperCase x)) m := by
  have hlookup :
      Run.lookup stack.chain x m = .failure (.undefinedVariable (Text.upperCase x)) m := by
    simp only [Run.lookup, h]
  have heval :
      eval (fuel + 1) stack (.ofName x) m = .failure (.undefinedVariable (Text.upperCase x)) m :=
    Run.bind_of_failure hlookup
  exact Run.bind_of_failure heval

/-- If both names are bound, they are exchanged. -/
theorem eval_bound (called : m.scopes.find? stack.chain f = some (.builtin .swap serial))
    (hx : m.scopes.find? stack.chain x = some v) (hy : m.scopes.find? stack.chain y = some w)
    (fuel : Nat) :
    eval (fuel + 2) stack (.call f [.ofName x, .ofName y]) m =
      .value .done { m with scopes := m.scopes.exchanged stack.chain x y v w } := by
  have hrun : exchange (eval (fuel + 1)) stack [.ofName x, .ofName y] m =
      .value .nothing { m with scopes := m.scopes.exchanged stack.chain x y v w } := by
    show ((eval (fuel + 1)).value stack (.ofName x) >>= fun v => _) m = _
    rw [Run.bind_of_value (value_ofName hx fuel), Run.bind_of_value (value_ofName hy fuel)]
    rfl
  rw [eval_eq called, Run.bind_of_value hrun]
  rfl

/-- When they are exchanged once more, in any spelling, the machine is as it was. -/
theorem eval_again {g x' y' : String} {m' : Machine}
    (hm' : m' = { m with scopes := m.scopes.exchanged stack.chain x y v w })
    (called : m'.scopes.find? stack.chain g = some (.builtin .swap serial))
    (hx : m.scopes.find? stack.chain x = some v) (hy : m.scopes.find? stack.chain y = some w)
    (spelled : Text.upperCase x' = Text.upperCase x)
    (spelled' : Text.upperCase y' = Text.upperCase y) (fuel : Nat) :
    eval (fuel + 2) stack (.call g [.ofName x', .ofName y']) m' = .value .done m := by
  have hscopes : m'.scopes = m.scopes.exchanged stack.chain x y v w := by rw [hm']
  obtain ⟨hx', hy'⟩ := Scopes.find?_exchanged hx hy
  rw [← hscopes, ← Scopes.find?_spelling spelled] at hx'
  rw [← hscopes, ← Scopes.find?_spelling spelled'] at hy'
  rw [eval_bound called hx' hy', hscopes, Scopes.exchanged_spelling spelled spelled',
    Scopes.exchanged_exchanged hx hy, hm']

theorem eval_first_unbound (called : m.scopes.find? stack.chain f = some (.builtin .swap serial))
    (hx : m.scopes.find? stack.chain x = none) (fuel : Nat) :
    eval (fuel + 2) stack (.call f [.ofName x, .ofName y]) m =
      .failure (.undefinedVariable (Text.upperCase x)) m := by
  have hrun : exchange (eval (fuel + 1)) stack [.ofName x, .ofName y] m =
      .failure (.undefinedVariable (Text.upperCase x)) m :=
    Run.bind_of_failure (value_ofName_unbound hx fuel)
  rw [eval_eq called]
  exact Run.bind_of_failure hrun

theorem eval_second_unbound (called : m.scopes.find? stack.chain f = some (.builtin .swap serial))
    (hx : m.scopes.find? stack.chain x = some v) (hy : m.scopes.find? stack.chain y = none)
    (fuel : Nat) :
    eval (fuel + 2) stack (.call f [.ofName x, .ofName y]) m =
      .failure (.undefinedVariable (Text.upperCase y)) m := by
  have hrun : exchange (eval (fuel + 1)) stack [.ofName x, .ofName y] m =
      .failure (.undefinedVariable (Text.upperCase y)) m := by
    show ((eval (fuel + 1)).value stack (.ofName x) >>= fun v => _) m = _
    rw [Run.bind_of_value (value_ofName hx fuel)]
    exact Run.bind_of_failure (value_ofName_unbound hy fuel)
  rw [eval_eq called]
  exact Run.bind_of_failure hrun

end Exchange

/-- `SWAP`, called by any name that is bound to it, on two names in any spelling. If both names are
bound along the chain, it ends with the value of each found under the other one; in each scope all
variables are the same as before, but for the one of either name in the innermost scope that has it;
and whatever is bound to `SWAP` then restores the machine when it is called on the same names, which
the name that was called is unless it is one of them. If a name is not bound, it fails on the first
one that is not, and nothing has been changed. -/
theorem swap_exchanges_in_place {m : Machine} {stack : CallStack} {f : String} {serial : Nat}
    (called : m.scopes.find? stack.chain f = some (.builtin .swap serial)) (x y : String)
    (fuel : Nat) :
    (∀ v w, m.scopes.find? stack.chain x = some v → m.scopes.find? stack.chain y = some w →
      ∃ s o p, eval (fuel + 2) stack (.call f [.ofName x, .ofName y]) m =
        .value .done { m with scopes := s } ∧
        s.find? stack.chain x = some w ∧ s.find? stack.chain y = some v ∧
        m.scopes.owner? stack.chain x = some o ∧ m.scopes.owner? stack.chain y = some p ∧
        s.size = m.scopes.size ∧
        (∀ i key, s.local? i key =
          if i = p ∧ key = Text.upperCase y then some v
          else if i = o ∧ key = Text.upperCase x then some w
          else m.scopes.local? i key) ∧
        (∀ g k x' y', s.find? stack.chain g = some (.builtin .swap k) →
          Text.upperCase x' = Text.upperCase x → Text.upperCase y' = Text.upperCase y →
          eval (fuel + 2) stack (.call g [.ofName x', .ofName y']) { m with scopes := s } =
            .value .done m) ∧
        (Text.upperCase f ≠ Text.upperCase x → Text.upperCase f ≠ Text.upperCase y →
          s.find? stack.chain f = some (.builtin .swap serial))) ∧
    (m.scopes.find? stack.chain x = none →
      eval (fuel + 2) stack (.call f [.ofName x, .ofName y]) m =
        .failure (.undefinedVariable (Text.upperCase x)) m) ∧
    (∀ v, m.scopes.find? stack.chain x = some v → m.scopes.find? stack.chain y = none →
      eval (fuel + 2) stack (.call f [.ofName x, .ofName y]) m =
        .failure (.undefinedVariable (Text.upperCase y)) m) := by
  refine ⟨fun v w hx hy => ?_, fun hx => Exchange.eval_first_unbound called hx fuel,
    fun v hx hy => Exchange.eval_second_unbound called hx hy fuel⟩
  obtain ⟨o, ho⟩ := Scopes.exists_owner_of_find? hx
  obtain ⟨p, hp⟩ := Scopes.exists_owner_of_find? hy
  obtain ⟨hx', hy'⟩ := Scopes.find?_exchanged hx hy
  have hsize : (m.scopes.exchanged stack.chain x y v w).size = m.scopes.size := by
    rw [Scopes.exchanged, Scopes.size_assignShared, Scopes.size_assignShared]
  have hstays : Text.upperCase f ≠ Text.upperCase x → Text.upperCase f ≠ Text.upperCase y →
      (m.scopes.exchanged stack.chain x y v w).find? stack.chain f = some (.builtin .swap serial) :=
    fun hfx hfy => (Scopes.find?_exchanged_other ho hp hfx hfy v w).trans called
  exact ⟨m.scopes.exchanged stack.chain x y v w, o, p, Exchange.eval_bound called hx hy fuel, hx',
    hy', ho, hp, hsize, Scopes.local?_exchanged ho hp v w,
    fun g k x' y' again hxs hys => Exchange.eval_again rfl again hx hy hxs hys fuel, hstays⟩

/-- A variable of a scope in the middle, which hides a global one, and a global variable; and a
name that is not bound. -/
theorem swap_exchanges_in_place_shadowed :
    let s : Scopes :=
      #[⟨[("SWAP", .builtin .swap 0), ("X", .int 1), ("Y", .int 2)]⟩, ⟨[("X", .int 3)]⟩, .empty]
    let m : Machine := { Machine.fresh .still .empty (.ofOctets []) with scopes := s }
    let stack : CallStack := ⟨256, [[2, 1, 0]], []⟩
    let swap : Node := .call "SWAP" [.ofName "X", .ofName "Y"]
    Reader.program? [] ["swap x, Y"] = some (.program [swap]) ∧
    (∃ s' : Scopes, eval 2 stack swap m = .value .done { m with scopes := s' } ∧
      s'.local? 1 "X" = some (.int 2) ∧ s'.local? 0 "Y" = some (.int 3) ∧
        s'.local? 0 "X" = some (.int 1) ∧
      eval 2 stack swap { m with scopes := s' } = .value .done m) ∧
    eval 2 stack (.call "SWAP" [.ofName "X", .ofName "Z"]) m =
      .failure (.undefinedVariable "Z") m := by
  intro s m stack swap
  have called : m.scopes.find? stack.chain "SWAP" = some (.builtin .swap 0) := rfl
  refine ⟨by decide +kernel, ?_, (swap_exchanges_in_place called "X" "Z" 0).2.2 (.int 3) rfl rfl⟩
  obtain ⟨s', o, p, hswap, -, -, ho, hp, -, hlocal, hagain, hstays⟩ :=
    (swap_exchanges_in_place called "X" "Y" 0).1 (.int 3) (.int 2) rfl rfl
  obtain rfl : 1 = o := Option.some.inj ho
  obtain rfl : 0 = p := Option.some.inj hp
  exact ⟨s', hswap, hlocal 1 "X", hlocal 0 "Y", hlocal 0 "X",
    hagain "SWAP" 0 "X" "Y" (hstays (by decide) (by decide)) rfl rfl⟩

end LineBasic
