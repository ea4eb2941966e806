import LineBasic.Evaluation
import LineBasic.Program.Reader
import LineBasic.Program.Search
import LineBasic.Value.Datum

/-!
# Sessions

A session reads source text piece by piece and runs what is complete on one machine.

* `Session` : a reader, a machine, and the statements handed out so far.
* `Session.Action` : something done in a session; it has no result if the program does not end.
* `Session.parse`, `Session.feed`, `Session.execute`, `Session.run` : reading and running.
* `Session.define`, `Session.global?` : global names, set and looked at from outside.
-/

namespace LineBasic

/-- A program being read and run. -/
structure Session where
  loader : Loader
  /-- The number of nested calls allowed. -/
  limit : Nat
  reader : Reader
  machine : Machine
  handed : Array Node

namespace Session

/-- The number of nested calls allowed if nothing else is said. -/
def defaultLimit : Nat := 256

/-- A bound that no evaluation reaches in practice. -/
def fuel : Nat := 1 <<< 62

/-- A session before its first piece. -/
def start (loader : Loader) (limit : Nat) (world : World) (disk : Disk) (input : Input) : Session :=
  ⟨loader, limit, .start, .fresh world disk input, #[]⟩

/-- Something done in a session. -/
abbrev Action := StateT Session Option

/-- The files as they are between two statements, after what was dropped has been written out. -/
def disk (s : Session) : Disk := (s.machine.sweep (CallStack.bottom s.limit).roots).disk

/-- Reads one more piece of source. -/
def parse (source : String) : Action (Except Error (List Node)) := fun s =>
  let (reader, result) := s.reader.parse (s.loader.catalog s.disk) source
  match result with
  | .ok nodes =>
    some (.ok nodes, { s with reader := reader, handed := s.handed ++ nodes.toArray })
  | .error e => some (.error e, { s with reader := reader })

/-- Does something on the machine. -/
def perform {α : Type} (r : Run α) : Action (Except Error α) := fun s =>
  match r s.machine with
  | .value a m => some (.ok a, { s with machine := m })
  | .failure e m => some (.error e, { s with machine := m })
  | .exhausted => none

/-- Runs a statement at the top level. -/
def execute (n : Node) : Action (Except Error Report) := do
  let limit := (← get).limit
  perform do
    let f ← eval fuel (.bottom limit) n
    Run.read fun m => f.result.report m.heap

/-- Runs statements, whether they fail or not. -/
def executeAll : List Node → Action (List (Except Error Report))
  | [] => return []
  | n :: ns => do
    let r ← execute n
    let rs ← executeAll ns
    return r :: rs

/-- Drops the construct that is open. -/
def abandon : Action Unit := modify fun s => { s with reader := s.reader.abandon }

/-- Reads a piece and runs the statements it completes. A piece that cannot be read ends the
construct that is open. -/
def feed (source : String) : Action (Except Error (List (Except Error Report))) := do
  match ← parse source with
  | .ok nodes => return .ok (← executeAll nodes)
  | .error e =>
    abandon
    return .error e

/-- Runs a statement that was handed out, by its number. -/
def executeHanded (index : Nat) : Action (Option (Except Error Report)) := do
  match (← get).handed[index]? with
  | some n => return some (← execute n)
  | none => return none

/-- The whole program read so far. -/
def finish : Action (Except Error Node) := return (← get).reader.finish

/-- Runs a whole program. It lies one level above its statements. -/
def runProgram (program : Node) : Action (Except Error Unit) := do
  let limit := (← get).limit
  perform do
    let _ ← eval (fuel + 1) (.bottom limit) program

/-- Runs the whole program read so far. -/
def run : Action (Except Error Unit) := do
  match ← finish with
  | .ok program => runProgram program
  | .error e => return .error e

/-- Reads pieces up to the first error. -/
def parseAll : List String → Action (Except Error Unit)
  | [] => return .ok ()
  | p :: ps => do
    match ← parse p with
    | .ok _ => parseAll ps
    | .error e => return .error e

/-- Reads a whole program in pieces. -/
def build (pieces : List String) : Action (Except Error Node) := do
  match ← parseAll pieces with
  | .ok () => finish
  | .error e => return .error e

/-- The text printed since it was taken last. -/
def takeOutput : Action String := fun s =>
  some (s.machine.output, { s with machine := { s.machine with output := "" } })

/-- What is bound to a global name. -/
def global? (name : String) (s : Session) : Option Report :=
  (s.machine.global? name).map fun v => v.report s.machine.heap

/-- Binds a global name from outside. -/
def define (name : String) (d : Datum) : Action Unit := modify fun s =>
  let (v, m) := s.machine.load d
  { s with machine := m.defineGlobal name v }

end Session
end LineBasic
