import LineBasic.Function.Argument
import LineBasic.Machine.Run

/-!
# Functions of files

* `Files.openFile`, `Files.closeFile` : opening a file by a mode, and closing it.
* `Files.write` : values written, each on a line of its own or not.
* `Files.readLine` : the next line, nothing at the end.
-/

namespace LineBasic
namespace Files

/-- The value of a line that was read. -/
def lineValue : Option String → Value
  | some s => .text s
  | none => .nothing

/-- An argument that has to be a file. -/
def argument (name : String) : Value → Except Error FileId
  | .file id => .ok id
  | v => .error (Argument.kindFault name "a file" v)

/-- The open file with an identity. -/
def find (id : FileId) : Run OpenFile :=
  Run.read fun m => m.file id

/-- Opens the file of a path by a mode, in any ASCII case. -/
def openPath (path mode : String) : Run Value := do
  let (f, disk) ← Run.ofExcept
    (OpenFile.openAs (← Run.read fun m => m.disk) path (Text.lowerCase mode))
  return .file (← Run.take fun m => m.addFile f disk)

/-- Opens a file, for reading if there is no mode. -/
def openFile : List Value → Run Value
  | [path] => do openPath (← Run.ofExcept (Argument.text "OPEN" path)) "r"
  | [path, mode] => do
    let path ← Run.ofExcept (Argument.text "OPEN" path)
    let mode ← Run.ofExcept (Argument.text "OPEN" mode)
    openPath path mode
  | args => Run.fail (Argument.countFault "OPEN" 2 args)

/-- Closes a file. -/
def closeFile : List Value → Run Value
  | [v] => do
    let id ← Run.ofExcept (argument "CLOSE" v)
    Run.update fun m => m.closeFile id
    return .nothing
  | args => Run.fail (Argument.countFault "CLOSE" 1 args)

/-- Writes one text. -/
def writeText (id : FileId) (s : String) : Run Unit := do
  let f ← find id
  let (disk, f) ← Run.ofExcept (f.write (← Run.read fun m => m.disk) s)
  Run.update fun m => { m.setFile id f with disk := disk }

/-- Writes the texts of values, each followed by `ending`. -/
def writeAll (id : FileId) (ending : String) : List Value → Run Unit
  | [] => return ()
  | v :: vs => do
    writeText id ((← Run.read fun m => v.display m.heap) ++ ending)
    writeAll id ending vs

/-- Writes values to a file. -/
def write (name ending : String) : List Value → Run Value
  | [] => Run.fail (.argumentCount name 1 0)
  | v :: vs => do
    let id ← Run.ofExcept (argument name v)
    writeAll id ending vs
    return .nothing

/-- Reads a line of a file. -/
def readLine : List Value → Run Value
  | [v] => do
    let id ← Run.ofExcept (argument "FINPUT" v)
    let f ← find id
    let (line, f) := f.readLine (← Run.read fun m => m.disk)
    Run.update fun m => m.setFile id f
    return lineValue (← Run.ofExcept line)
  | args => Run.fail (Argument.countFault "FINPUT" 1 args)

end Files
end LineBasic
