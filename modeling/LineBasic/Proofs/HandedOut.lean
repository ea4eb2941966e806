import LineBasic.Session
import LineBasic.Proofs.Entries
import LineBasic.Proofs.Fuel

/-!
# Statements handed out

Reading a piece hands out the top-level statements that it finishes. Whoever runs them at once,
piece by piece, runs the whole program.

* `Reader.readAll?` : pieces that can all be read, each with the modules in reach at its time.
* `Reader.interact` : the statements of each piece run before the next piece is read;
  `Reader.interact_eq_runEach`, `runProgram_eq_runEach` : this is running the program.
* `Session.interact`, `Session.converse` : the same in a session, with given modules and with those
  that the session finds; `Session.interact_left`, `Session.converse_left` : what they leave.
* `Reader.handOuts` : what is handed out, by its place at the top level, if pieces may fail and
  constructs may be dropped.
* `Reader.statements_handed_out_once` : all of this, from the first piece to the last.
-/

namespace LineBasic

/-- Runs statements one after another, up to the first error. -/
def runEach (fuel limit : Nat) : List Node → Run Unit
  | [] => return ()
  | n :: ns => do
    let _ ← eval fuel (.bottom limit) n
    runEach fuel limit ns

/-- Runs a whole program. -/
def runProgram (fuel limit : Nat) (tree : Node) : Run Unit := do
  let _ ← eval fuel (.bottom limit) tree

theorem runEach_append (fuel limit : Nat) (ns ns' : List Node) :
    runEach fuel limit (ns ++ ns') = runEach fuel limit ns >>= fun _ => runEach fuel limit ns' := by
  induction ns with
  | nil => exact (Run.pure_bind () fun _ => runEach fuel limit ns').symm
  | cons n ns ih => simp only [List.cons_append, runEach, ih, Run.bind_assoc]

/-- A program is its statements, each with one level less. -/
theorem runProgram_eq_runEach (fuel limit : Nat) (ns : List Node) :
    runProgram (fuel + 1) limit (.program ns) = runEach fuel limit ns := by
  have hall (ns : List Node) :
      (Statements.all (eval fuel) (.bottom limit) ns >>= fun _ => return ()) =
      runEach fuel limit ns := by
    induction ns with
    | nil => rfl
    | cons n ns ih => simp only [Statements.all, runEach, Run.bind_assoc, ih]
  exact hall ns

namespace Reader

/-! ### Pieces that can all be read -/

/-- Reads pieces one after another, if all of them can be read, and collects the nodes they finish.
The modules in reach may change from one piece to the next. -/
def readAll? : List (Catalog × String) → Reader → Option (Reader × List Node)
  | [], r => some (r, [])
  | c :: cs, r => (r.parse? c.1 c.2).bind fun first =>
      (readAll? cs first.1).map fun others => (others.1, first.2 ++ others.2)

/-- Reads a piece, runs the statements that it finishes, and goes on with the next piece,
up to the first error. -/
def interact (fuel limit : Nat) : List (Catalog × String) → Reader → Run Unit
  | [], _ => return ()
  | c :: cs, r =>
    match r.parse c.1 c.2 with
    | (r', .ok nodes) => do
      runEach fuel limit nodes
      interact fuel limit cs r'
    | (_, .error e) => Run.fail e

variable {r r' : Reader}

theorem parse?_eq_some {catalog : Catalog} {source : String} {nodes : List Node} :
    r.parse? catalog source = some (r', nodes) ↔ r.parse catalog source = (r', .ok nodes) := by
  unfold parse?
  obtain ⟨s, _ | ns⟩ := r.parse catalog source <;> simp

/-- Step and run: a piece adds at the top level what it hands out, and so do pieces. -/
theorem readAll?_done {pieces : List (Catalog × String)} {nodes : List Node}
    (h : readAll? pieces r = some (r', nodes)) :
    r'.draft.done.toList = r.draft.done.toList ++ nodes := by
  induction pieces generalizing r nodes with
  | nil =>
    cases h
    simp
  | cons c cs ih =>
    obtain ⟨⟨s, first⟩, hfirst, hrest⟩ := Option.bind_eq_some_iff.1 h
    obtain ⟨⟨t, others⟩, hothers, heq⟩ := Option.map_eq_some_iff.1 hrest
    cases heq
    rw [ih hothers, parse_ok (parse?_eq_some.1 hfirst), List.append_assoc]

theorem interact_eq_runEach (fuel limit : Nat) {pieces : List (Catalog × String)}
    {nodes : List Node} (h : readAll? pieces r = some (r', nodes)) :
    interact fuel limit pieces r = runEach fuel limit nodes := by
  induction pieces generalizing r nodes with
  | nil =>
    cases h
    rfl
  | cons c cs ih =>
    obtain ⟨⟨s, first⟩, hfirst, hrest⟩ := Option.bind_eq_some_iff.1 h
    obtain ⟨⟨t, others⟩, hothers, heq⟩ := Option.map_eq_some_iff.1 hrest
    cases heq
    simp only [interact, parse?_eq_some.1 hfirst, runEach_append, ih hothers]

/-- With no construct left open, the program is what was handed out. -/
theorem finish_eq_handed {pieces : List (Catalog × String)} {nodes : List Node}
    (h : readAll? pieces start = some (r, nodes)) (closed : r.isOpen = false) :
    r.finish = .ok (.program nodes) := by
  have hdone := readAll?_done h
  obtain ⟨⟨done, _ | ⟨b, bs⟩⟩, line⟩ := r
  · have hnodes : done.toList = nodes := hdone
    simp only [finish, Draft.finish, hnodes]
  · cases closed

/-! ### Pieces that may fail -/

/-- The statements that a call hands out. A piece that fails hands out none. -/
def Call.handed (c : Call) (r : Reader) : List Node :=
  match (c.run r).2 with
  | .ok nodes => nodes
  | .error _ => []

/-- The statements that calls hand out. Each comes with its place at the top level, counted from
those that were there before its call. -/
def handOuts : List Call → Reader → List (Node × Nat)
  | [], _ => []
  | c :: cs, r => (c.handed r).zipIdx r.draft.done.size ++ handOuts cs (c.run r).1

/-- A call leaves what is at the top level, and the statements that it hands
out come first after it. -/
theorem Call.run_done (c : Call) (r : Reader) :
    ∃ rest, (c.run r).1.draft.done.toList = r.draft.done.toList ++ c.handed r ++ rest := by
  cases c with
  | abandon => exact ⟨[], by simp [run, handed, Reader.abandon, Draft.abandon]⟩
  | parse catalog source =>
    obtain ⟨⟨r', _ | nodes⟩, hparse⟩ : ∃ read, r.parse catalog source = read := ⟨_, rfl⟩
    · obtain ⟨-, lost, hlost⟩ := parse_error hparse
      exact ⟨lost, by simp [run, handed, hparse, hlost]⟩
    · exact ⟨[], by simp [run, handed, hparse, parse_ok hparse]⟩

theorem after_done (calls : List Call) (r : Reader) :
    ∃ rest, (after calls r).draft.done.toList = r.draft.done.toList ++ rest := by
  induction calls generalizing r with
  | nil => exact ⟨[], by simp [after]⟩
  | cons c cs ih =>
    obtain ⟨more, hmore⟩ := c.run_done r
    obtain ⟨rest, hrest⟩ := ih (c.run r).1
    exact ⟨c.handed r ++ more ++ rest, by simp [after, hrest, hmore]⟩

theorem size_le_of_mem_handOuts {calls : List Call} {r : Reader} {x : Node × Nat}
    (h : x ∈ handOuts calls r) : r.draft.done.size ≤ x.2 := by
  induction calls generalizing r with
  | nil => cases h
  | cons c cs ih =>
    rcases List.mem_append.1 h with h | h
    · exact List.le_snd_of_mem_zipIdx h
    · obtain ⟨rest, hrest⟩ := c.run_done r
      have hsize := congrArg List.length hrest
      have hle := ih h
      simp only [List.length_append, Array.length_toList] at hsize
      omega

/-- The places of statements that are handed out later come later. -/
theorem handOuts_increasing (calls : List Call) (r : Reader) :
    ((handOuts calls r).map Prod.snd).Pairwise (· < ·) := by
  induction calls generalizing r with
  | nil => exact .nil
  | cons c cs ih =>
    rw [handOuts, List.map_append, List.zipIdx_map_snd, List.pairwise_append]
    refine ⟨List.pairwise_lt_range', ih _, fun i hi j hj => ?_⟩
    obtain ⟨x, hx, rfl⟩ := List.mem_map.1 hj
    obtain ⟨rest, hrest⟩ := c.run_done r
    have hsize := congrArg List.length hrest
    have hle := size_le_of_mem_handOuts hx
    have hlt := (List.mem_range'_1.1 hi).2
    simp only [List.length_append, Array.length_toList] at hsize
    omega

/-- What is handed out stays where it is. -/
theorem getElem?_of_mem_handOuts {calls : List Call} {r : Reader} {n : Node} {i : Nat}
    (h : (n, i) ∈ handOuts calls r) : (after calls r).draft.done[i]? = some n := by
  induction calls generalizing r with
  | nil => cases h
  | cons c cs ih =>
    rcases List.mem_append.1 h with h | h
    · obtain ⟨more, hmore⟩ := c.run_done r
      obtain ⟨rest, hrest⟩ := after_done cs (c.run r).1
      obtain ⟨hle, hn⟩ := List.mem_zipIdx_iff_le_and_getElem?_sub.1 h
      have hsize : r.draft.done.toList.length ≤ i := hle
      have hlt : i - r.draft.done.toList.length < (c.handed r).length :=
        (List.getElem?_eq_some_iff.1 hn).1
      show (after cs (c.run r).1).draft.done[i]? = some n
      rw [← Array.getElem?_toList, hrest, hmore, List.append_assoc, List.append_assoc,
        List.getElem?_append_right hsize, List.getElem?_append_left hlt]
      exact hn
    · exact ih h

end Reader

/-! ### Sessions -/

/-- What the end of a run leaves: its report and the machine. -/
def Outcome.left? : Outcome Unit → Option (Except Error Unit × Machine)
  | .value () m => some (.ok (), m)
  | .failure e m => some (.error e, m)
  | .exhausted => none

namespace Session

/-- Runs statements one after another, up to the first error. -/
def executeEach : List Node → Action (Except Error Unit)
  | [] => return .ok ()
  | n :: ns => do
    match ← execute n with
    | .ok _ => executeEach ns
    | .error e => return .error e

/-- Reads a piece, runs the statements that it finishes, and goes on with the next piece, up to the
first error. Each piece comes with the modules in reach at its time. -/
def interact : List (Catalog × String) → Action (Except Error Unit)
  | [] => return .ok ()
  | c :: cs => do
    modify fun s => { s with loader := .fixed c.1 }
    match ← parse c.2 with
    | .ok nodes =>
      match ← executeEach nodes with
      | .ok () => interact cs
      | .error e => return .error e
    | .error e => return .error e

/-- The same with the modules that the session finds on its disk, which statements may change. -/
def converse : List String → Action (Except Error Unit)
  | [] => return .ok ()
  | source :: sources => do
    match ← parse source with
    | .ok nodes =>
      match ← executeEach nodes with
      | .ok () => converse sources
      | .error e => return .error e
    | .error e => return .error e

/-- What an action leaves: its report and the machine. -/
def left (ended : Except Error Unit × Session) : Except Error Unit × Machine :=
  (ended.1, ended.2.machine)

theorem left_perform (r : Run Unit) (s : Session) :
    (perform r s).map left = (r s.machine).left? := by
  unfold perform
  cases r s.machine <;> rfl

theorem executeEach_eq_perform (ns : List Node) (s : Session) :
    executeEach ns s = perform (runEach fuel s.limit ns) s := by
  induction ns generalizing s with
  | nil => rfl
  | cons n ns ih =>
    show (execute n s).bind _ = _
    have hexecute : execute n s = perform (eval fuel (.bottom s.limit) n >>= fun f =>
        Run.read fun m => f.result.report m.heap) s := rfl
    rw [hexecute]
    simp only [perform, runEach, Run.bind_apply, Run.read]
    cases eval fuel (.bottom s.limit) n s.machine with
    | value f m => exact ih { s with machine := m }
    | failure e m => rfl
    | exhausted => rfl

theorem runProgram_left (program : Node) (s : Session) :
    (runProgram program s).map left =
      (LineBasic.runProgram (fuel + 1) s.limit program s.machine).left? :=
  left_perform (LineBasic.runProgram (fuel + 1) s.limit program) s

/-- Reading is up to the reader, and running is up to the machine. -/
theorem interact_left (pieces : List (Catalog × String)) (s : Session) :
    (interact pieces s).map left =
      (Reader.interact fuel s.limit pieces s.reader s.machine).left? := by
  induction pieces generalizing s with
  | nil => rfl
  | cons c cs ih =>
    obtain ⟨catalog, source⟩ := c
    obtain ⟨⟨r, _ | nodes⟩, hparse⟩ : ∃ read, s.reader.parse catalog source = read := ⟨_, rfl⟩
    · next e =>
      have hread : parse source { s with loader := .fixed catalog } =
          some (.error e, { s with loader := .fixed catalog, reader := r }) := by
        simp only [parse, Loader.catalog, hparse]
      show ((parse source { s with loader := .fixed catalog }).bind _).map left = _
      rw [hread]
      simp only [Reader.interact, hparse]
      rfl
    · have hread : parse source { s with loader := .fixed catalog } = some (.ok nodes,
          { s with
            loader := .fixed catalog, reader := r, handed := s.handed ++ nodes.toArray }) := by
        simp only [parse, Loader.catalog, hparse]
      show ((parse source { s with loader := .fixed catalog }).bind _).map left = _
      rw [hread]
      show ((executeEach nodes _).bind _).map left = _
      rw [executeEach_eq_perform]
      simp only [Reader.interact, hparse, perform, Run.bind_apply]
      cases runEach fuel s.limit nodes s.machine with
      | value u m => exact ih _
      | failure e m => rfl
      | exhausted => rfl

/-- Pieces that are never read, without modules. -/
def unread (sources : List String) : List (Catalog × String) :=
  sources.map fun source => ([], source)

theorem map_snd_unread (sources : List String) : (unread sources).map Prod.snd = sources := by
  simp [unread, Function.comp_def]

/-- Whatever its statements do to the disk, a session finds some modules for each piece. -/
theorem converse_left (sources : List String) (s : Session) :
    ∃ pieces : List (Catalog × String), pieces.map Prod.snd = sources ∧
      (converse sources s).map left =
        (Reader.interact fuel s.limit pieces s.reader s.machine).left? := by
  induction sources generalizing s with
  | nil => exact ⟨[], rfl, rfl⟩
  | cons source sources ih =>
    obtain ⟨catalog, hcatalog⟩ : ∃ c, s.loader.catalog s.disk = c := ⟨_, rfl⟩
    obtain ⟨⟨r, _ | nodes⟩, hparse⟩ : ∃ read, s.reader.parse catalog source = read := ⟨_, rfl⟩
    · next e =>
      refine ⟨(catalog, source) :: unread sources, by rw [List.map_cons, map_snd_unread], ?_⟩
      have hread : parse source s = some (.error e, { s with reader := r }) := by
        simp only [parse, hcatalog, hparse]
      show ((parse source s).bind _).map left = _
      rw [hread]
      simp only [Reader.interact, hparse]
      rfl
    · have hread : parse source s =
          some (.ok nodes, { s with reader := r, handed := s.handed ++ nodes.toArray }) := by
        simp only [parse, hcatalog, hparse]
      obtain ⟨pieces, hpieces, hgoes⟩ : ∃ pieces : List (Catalog × String),
          pieces.map Prod.snd = sources ∧
          ∀ u m, runEach fuel s.limit nodes s.machine = .value u m →
            (converse sources
              { s with reader := r, handed := s.handed ++ nodes.toArray, machine := m }).map left =
              (Reader.interact fuel s.limit pieces r m).left? := by
        cases runEach fuel s.limit nodes s.machine with
        | value u m =>
          obtain ⟨pieces, hpieces, hleft⟩ := ih
            { s with reader := r, handed := s.handed ++ nodes.toArray, machine := m }
          exact ⟨pieces, hpieces, fun u m h => by cases h; exact hleft⟩
        | _ => exact ⟨unread sources, map_snd_unread sources, fun u m h => by cases h⟩
      refine ⟨(catalog, source) :: pieces, by rw [List.map_cons, hpieces], ?_⟩
      show ((parse source s).bind _).map left = _
      rw [hread]
      show ((executeEach nodes _).bind _).map left = _
      rw [executeEach_eq_perform]
      simp only [Reader.interact, hparse, perform, Run.bind_apply]
      cases hrun : runEach fuel s.limit nodes s.machine with
      | value u m => exact hgoes u m hrun
      | failure e m => rfl
      | exhausted => rfl

end Session

namespace Reader

/-! ### Both together -/

/-- Pieces that can all be read, with no construct left open, hand out the statements of the
program, each of them once and in order. Running them as they are handed out, up to the first error,
is running the program: it prints the same, fails in the same way and leaves the same machine, or
neither ends. This holds for the evaluator with any fuel and for sessions, also for one that finds
the modules on its own disk. If pieces fail and constructs are dropped in between, the statements
handed out still are different ones of the top level, in order. -/
theorem statements_handed_out_once :
    (∀ pieces r nodes, readAll? pieces start = some (r, nodes) → r.isOpen = false →
      r.finish = .ok (.program nodes) ∧
      (∀ fuel limit,
        interact fuel limit pieces start = runProgram (fuel + 1) limit (.program nodes)) ∧
      ∀ s : Session, s.reader = start →
        (Session.interact pieces s).map Session.left =
          (Session.runProgram (.program nodes) s).map Session.left) ∧
    (∀ (s : Session) (sources : List String), ∃ pieces : List (Catalog × String),
      pieces.map Prod.snd = sources ∧
      (Session.converse sources s).map Session.left =
        (Session.interact pieces s).map Session.left) ∧
    ∀ calls r, ((handOuts calls r).map Prod.snd).Pairwise (· < ·) ∧
      ∀ n i, (n, i) ∈ handOuts calls r → (after calls r).draft.done[i]? = some n := by
  refine ⟨fun pieces r nodes hread closed => ?_, fun s sources => ?_,
    fun calls r => ⟨handOuts_increasing calls r, fun n i => getElem?_of_mem_handOuts⟩⟩
  · have hbatch (fuel limit : Nat) :
        interact fuel limit pieces start = runProgram (fuel + 1) limit (.program nodes) := by
      rw [interact_eq_runEach fuel limit hread, runProgram_eq_runEach]
    refine ⟨finish_eq_handed hread closed, hbatch, fun s hstart => ?_⟩
    rw [Session.interact_left, Session.runProgram_left, hstart, hbatch]
  · obtain ⟨pieces, hpieces, hleft⟩ := Session.converse_left sources s
    exact ⟨pieces, hpieces, hleft.trans (Session.interact_left pieces s).symm⟩

/-- Three pieces: an assignment, the start of a loop, and the rest of the loop with a statement
after it. A session prints the same number whether it runs them piece by piece or as a program. -/
theorem statements_handed_out_once_loop :
    let pieces : List (Catalog × String) :=
      [([], "A = 1"), ([], "WHILE A < 3"), ([], "A = A + 1\nWEND\nPRINT A")]
    let s : Session := .start (.fixed []) 256 .still .empty (.ofOctets [])
    ∃ r nodes m, readAll? pieces start = some (r, nodes) ∧ r.isOpen = false ∧ nodes.length = 3 ∧
      r.finish = .ok (.program nodes) ∧ m.output = "3\n" ∧
      (Session.runProgram (.program nodes) s).map Session.left = some (.ok (), m) ∧
      (Session.interact pieces s).map Session.left = some (.ok (), m) := by
  intro pieces s
  have hread : ((readAll? pieces start).map fun read => (read.1.isOpen, read.2.length,
      (Session.runProgram (.program read.2) s).map fun ended =>
        (ended.1.isOk, ended.2.machine.output))) = some (false, 3, some (true, "3\n")) := by
    decide +kernel
  obtain ⟨⟨r, nodes⟩, hread, hshape⟩ := Option.map_eq_some_iff.1 hread
  simp only [Prod.mk.injEq] at hshape
  obtain ⟨hclosed, hlength, hprints⟩ := hshape
  obtain ⟨hfinish, -, hsession⟩ := statements_handed_out_once.1 pieces r nodes hread hclosed
  obtain ⟨⟨report, s'⟩, hends, hprints⟩ := Option.map_eq_some_iff.1 hprints
  simp only [Prod.mk.injEq] at hprints
  obtain ⟨hok, houtput⟩ := hprints
  cases report with
  | error e => cases hok
  | ok u =>
    have hleft : (Session.runProgram (.program nodes) s).map Session.left =
        some (.ok (), s'.machine) := by
      rw [hends]
      rfl
    exact ⟨r, nodes, s'.machine, hread, hclosed, hlength, hfinish, houtput, hleft,
      (hsession s rfl).trans hleft⟩

end Reader
end LineBasic
