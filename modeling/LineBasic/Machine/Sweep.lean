import LineBasic.Machine.Run

/-!
# Dropped files

A file that nothing refers to any more is closed, and what waits in its buffer is written. Here this
is done before the disk is next looked at, for up to then nothing can tell.

* `Referent`, `Value.referents` : what values refer to.
* `Machine.keeps` : what is kept, given the references from outside of the machine.
* `Machine.keeps_iff` : it is what is in a set of references that sustain each other.
* `Machine.dropped` : the files with something waiting that nothing keeps.
* `Machine.sweep` : the machine after these have been written out.
-/

namespace LineBasic

/-- What values can refer to. -/
inductive Referent where
  | scope (id : ScopeId)
  | sequence (id : SequenceId)
  | file (id : FileId)
  deriving DecidableEq

/-- What a value refers to. A function of the program refers to the scopes around its definition. -/
def Value.referents : Value → List Referent
  | .closure c => c.scope.map .scope
  | .queue id => [.sequence id]
  | .stack id => [.sequence id]
  | .array id => [.sequence id]
  | .file id => [.file id]
  | _ => []

namespace Machine

/-- All that values are stored in. -/
def containers (m : Machine) : List Referent :=
  (List.range m.scopes.size).map .scope ++ (List.range m.heap.size).map .sequence

/-- The values stored in something. -/
def contents (m : Machine) : Referent → List Value
  | .scope id => (m.scopes.getD id .empty).entries.map Prod.snd
  | .sequence id => (m.heap.sequence id).toList
  | .file _ => []

/-- Whether a value stored in `a` refers to `b`. -/
def refers (m : Machine) (a b : Referent) : Bool :=
  (m.contents a).any fun v => v.referents.contains b

/-- Whether the references to something can be followed backwards, to one of the roots or
for a number of steps. -/
def keepsWithin (m : Machine) (roots : List Referent) : Nat → Referent → Bool
  | 0, _ => true
  | steps + 1, r =>
    roots.contains r || m.containers.any fun a => m.refers a r && m.keepsWithin roots steps a

/-- Whether something is kept. References are counted, so that what a circle of references keeps is
never dropped: it is in one if there are more steps than places to come from. -/
def keeps (m : Machine) (roots : List Referent) (r : Referent) : Bool :=
  m.keepsWithin roots (m.containers.length + 1) r

/-- References that sustain each other: each thing in the set is a root, or a value stored in
another one of them refers to it. -/
def Sustained (m : Machine) (roots : List Referent) (kept : Referent → Prop) : Prop :=
  ∀ b, kept b → b ∈ roots ∨ ∃ a ∈ m.containers, kept a ∧ m.refers a b = true

section Keeping

variable {m : Machine} {roots : List Referent}

theorem keepsWithin_succ {steps : Nat} {r : Referent} : m.keepsWithin roots (steps + 1) r = true ↔
    r ∈ roots ∨ ∃ a ∈ m.containers, m.refers a r = true ∧ m.keepsWithin roots steps a = true := by
  rw [keepsWithin, Bool.or_eq_true, List.contains_iff_mem, List.any_eq_true]
  simp only [Bool.and_eq_true]

theorem Sustained.keepsWithin {kept : Referent → Prop} (h : m.Sustained roots kept) (steps : Nat)
    {r : Referent} (hr : kept r) : m.keepsWithin roots steps r = true := by
  induction steps generalizing r with
  | zero => rfl
  | succ steps ih =>
    refine keepsWithin_succ.2 ((h r hr).imp_right ?_)
    rintro ⟨a, ha, hkept, hrefers⟩
    exact ⟨a, ha, hrefers, ih hkept⟩

/-- Following references for one step more keeps no more. -/
theorem keepsWithin_of_succ {steps : Nat} {r : Referent}
    (h : m.keepsWithin roots (steps + 1) r = true) :
    m.keepsWithin roots steps r = true := by
  induction steps generalizing r with
  | zero => rfl
  | succ steps ih =>
    refine keepsWithin_succ.2 ((keepsWithin_succ.1 h).imp_right ?_)
    rintro ⟨a, ha, hrefers, hkept⟩
    exact ⟨a, ha, hrefers, ih hkept⟩

theorem keepsWithin_of_le {steps more : Nat} (h : steps ≤ more) {r : Referent}
    (hr : m.keepsWithin roots more r = true) : m.keepsWithin roots steps r = true := by
  obtain ⟨k, rfl⟩ := Nat.exists_eq_add_of_le h
  clear h
  induction k with
  | zero => exact hr
  | succ k ih => exact ih (keepsWithin_of_succ hr)

/-- After some number of steps, no further container is dropped: each step
before drops one of them. -/
theorem exists_stable (m : Machine) (roots : List Referent) : ∃ steps ≤ m.containers.length,
    ∀ a ∈ m.containers, m.keepsWithin roots steps a = true →
    m.keepsWithin roots (steps + 1) a = true := by
  let kept (steps : Nat) := m.containers.filter (m.keepsWithin roots steps)
  have hsub (steps : Nat) : (kept (steps + 1)).Sublist (kept steps) := by
    have hagain : kept (steps + 1) = (kept steps).filter (m.keepsWithin roots (steps + 1)) := by
      rw [List.filter_filter]
      refine List.filter_congr fun a _ => ?_
      cases h : m.keepsWithin roots (steps + 1) a with
      | true => rw [keepsWithin_of_succ h, Bool.true_and]
      | false => rw [Bool.false_and]
    exact hagain ▸ List.filter_sublist
  apply Classical.byContradiction
  intro hnone
  have hfewer (steps : Nat) (h : steps ≤ m.containers.length) :
      (kept (steps + 1)).length < (kept steps).length := by
    refine Nat.lt_of_not_le fun hle => hnone ⟨steps, h, fun a ha hkept => ?_⟩
    have hmem : a ∈ kept (steps + 1) :=
      (hsub steps).eq_of_length_le hle ▸ List.mem_filter.2 ⟨ha, hkept⟩
    exact (List.mem_filter.1 hmem).2
  have hleft (steps : Nat) (h : steps ≤ m.containers.length + 1) :
      (kept steps).length + steps ≤ m.containers.length := by
    induction steps with
    | zero => exact List.length_filter_le _ _
    | succ steps ih =>
      have hless := hfewer steps (Nat.le_of_succ_le_succ h)
      have hbefore := ih (Nat.le_of_succ_le h)
      omega
  have hlast := hleft _ (Nat.le_refl _)
  omega

/-- What is kept are the roots and what can be followed from them, and all circles of references
with what can be followed from these: everything in a set that sustains itself. -/
theorem keeps_iff {r : Referent} :
    m.keeps roots r = true ↔ ∃ kept, m.Sustained roots kept ∧ kept r := by
  constructor
  · intro h
    obtain ⟨steps, hsteps, hstable⟩ := m.exists_stable roots
    refine ⟨fun b => m.keepsWithin roots (steps + 1) b = true, fun b hb => ?_,
      keepsWithin_of_le (Nat.succ_le_succ hsteps) h⟩
    refine (keepsWithin_succ.1 hb).imp_right ?_
    rintro ⟨a, ha, hrefers, hkept⟩
    exact ⟨a, ha, hstable a ha hkept, hrefers⟩
  · rintro ⟨kept, hsustained, hr⟩
    exact hsustained.keepsWithin _ hr

end Keeping

/-- The files with something waiting that nothing keeps. -/
def dropped (m : Machine) (roots : List Referent) : List FileId :=
  (List.range m.files.size).filter fun id => (m.file id).isWaiting && !m.keeps roots (.file id)

/-- Writes out what was dropped. -/
def sweep (m : Machine) (roots : List Referent) : Machine :=
  if (m.dropped roots).isEmpty then m
  else
    (m.world.order m.asked (m.dropped roots)).foldl closeFile { m with asked := m.asked + 1 }

theorem foldl_closeFile (ids : List FileId) (m : Machine) :
    ∃ files disk, ids.foldl closeFile m = { m with files := files, disk := disk } := by
  induction ids generalizing m with
  | nil => exact ⟨m.files, m.disk, rfl⟩
  | cons id ids ih =>
    obtain ⟨files, disk, h⟩ := ih (m.closeFile id)
    exact ⟨files, disk, h⟩

/-- Nothing but the files is changed. -/
theorem sweep_keeps (m : Machine) (roots : List Referent) : ∃ files disk asked,
    m.sweep roots = { m with files := files, disk := disk, asked := asked } := by
  unfold sweep
  split
  · exact ⟨m.files, m.disk, m.asked, rfl⟩
  · obtain ⟨files, disk, h⟩ := foldl_closeFile (m.world.order m.asked (m.dropped roots))
      { m with asked := m.asked + 1 }
    exact ⟨files, disk, m.asked + 1, h⟩

@[simp] theorem sweep_scopes (m : Machine) (roots : List Referent) :
    (m.sweep roots).scopes = m.scopes := by
  obtain ⟨files, disk, asked, h⟩ := m.sweep_keeps roots
  rw [h]

@[simp] theorem sweep_heap (m : Machine) (roots : List Referent) :
    (m.sweep roots).heap = m.heap := by
  obtain ⟨files, disk, asked, h⟩ := m.sweep_keeps roots
  rw [h]

end Machine
end LineBasic
