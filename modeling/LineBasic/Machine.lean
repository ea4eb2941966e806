import LineBasic.Machine.OpenFile
import LineBasic.Machine.World
import LineBasic.Scope
import LineBasic.Value.Display

/-!
# The machine

All that running a program reads and changes.

* `Machine` : scopes, sequences, open files, the disk, the console and the world around them.
* `Machine.fresh` : a machine in which only the built-ins are bound.
* `Machine.allocate`, `Machine.newScope`, `Machine.addFile` : new identities.
* `Machine.closeFile` : a file closed, with what it leaves on the disk.
* `Machine.edit` : a sequence changed in place, for all values that refer to it.
* `Machine.random`, `Machine.runScript` : what the world is asked for.
-/

namespace LineBasic

/-- The state of a run. -/
structure Machine where
  scopes : Scopes
  heap : Heap
  files : Array OpenFile
  disk : Disk
  input : Input
  /-- All text printed so far. -/
  output : String
  /-- The next serial number of a definition. -/
  serial : Nat
  world : World
  /-- The number of the next question to the world. -/
  asked : Nat

namespace Machine

/-- The number of the half turn. -/
def pi : Float := Float.ofBits 0x400921FB54442D18

/-- The names bound at the start. -/
def initialBindings : Bindings :=
  let named : List (String × Value) :=
    [("NOTHING", .nothing), ("TRUE", .bool true), ("FALSE", .bool false), ("PI", .float pi)]
  ⟨Builtin.initial.map (fun b => (b.name, .builtin b 0)) ++ named⟩

/-- A machine before its first program. -/
def fresh (world : World) (disk : Disk) (input : Input) : Machine :=
  ⟨#[initialBindings], #[], #[], disk, input, "", 1, world, 0⟩

/-- Stores a new sequence. -/
def allocate (m : Machine) (items : Array Value) : SequenceId × Machine :=
  (m.heap.size, { m with heap := m.heap.push items })

/-- Changes the sequence with an identity. -/
def edit (m : Machine) (id : SequenceId) (f : Array Value → Array Value) : Machine :=
  { m with heap := m.heap.modify id f }

/-- Makes a new scope. -/
def newScope (m : Machine) (names : Bindings) : ScopeId × Machine :=
  (m.scopes.size, { m with scopes := m.scopes.push names })

/-- Keeps a file that was opened. -/
def addFile (m : Machine) (f : OpenFile) (disk : Disk) : FileId × Machine :=
  (m.files.size, { m with files := m.files.push f, disk := disk })

/-- The file with an identity. -/
def file (m : Machine) (id : FileId) : OpenFile := m.files.getD id ⟨"", [], .closed⟩

/-- Puts a file in the place of one that was opened before. -/
def setFile (m : Machine) (id : FileId) (f : OpenFile) : Machine :=
  { m with files := m.files.setIfInBounds id f }

/-- Closes a file; what waits in its buffer is written. -/
def closeFile (m : Machine) (id : FileId) : Machine :=
  let (disk, f) := (m.file id).close m.disk
  { m.setFile id f with disk := disk }

/-- Prints a text. -/
def print (m : Machine) (s : String) : Machine := { m with output := m.output ++ s }

/-- Uses up a serial number. -/
def nextSerial (m : Machine) : Nat × Machine := (m.serial, { m with serial := m.serial + 1 })

/-- Binds a global name. -/
def defineGlobal (m : Machine) (name : String) (v : Value) : Machine :=
  { m with scopes := m.scopes.define Scopes.global name v }

/-- The value of a global name. -/
def global? (m : Machine) (name : String) : Option Value := m.scopes.find? [Scopes.global] name

/-- Binds the contents of a library, each time anew. -/
def install (m : Machine) (library : Bundle) : Machine :=
  let (serial, m) := m.nextSerial
  library.contents.foldl (fun m b => m.defineGlobal b.name (.builtin b serial)) m

/-- The next random number. -/
def random (m : Machine) : Float × Machine :=
  (m.world.draw m.asked, { m with asked := m.asked + 1 })

/-- Runs the script of a path. It works on the files and on the console, and leaves the working
directory where it is. If the path leads to no file any more, nothing is run. -/
def runScript (m : Machine) (path : String) : Except DiskFault Unit × Machine :=
  if m.disk.isFile path then
    let next : Machine := { m with asked := m.asked + 1 }
    match m.world.script m.asked path m.disk m.input.unread with
    | .error f => (.error f, next)
    | .ok e =>
      (.ok (), { next with
        disk := { e.disk with here := m.disk.here }
        input := { m.input with unread := e.unread }
        output := m.output ++ e.printed })
  else (.ok (), m)

/-- Scripts do not reach into a program. -/
theorem runScript_keeps (m : Machine) (path : String) :
    (m.runScript path).2.scopes = m.scopes ∧ (m.runScript path).2.heap = m.heap := by
  unfold runScript
  split
  · cases m.world.script m.asked path m.disk m.input.unread <;> exact ⟨rfl, rfl⟩
  · exact ⟨rfl, rfl⟩

end Machine
end LineBasic
