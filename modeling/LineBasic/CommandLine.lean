import LineBasic.CommandLine.Request
import LineBasic.Session

/-!
# The command line

* `CommandLine.runFile` : a program from a file, run, printed as a tree or saved.
* `CommandLine.interact` : statements from the console, each run as soon as it is complete.
* `CommandLine.run` : a whole invocation, with what it leaves on disk and on the console.
-/

namespace LineBasic

/-- The end of an invocation. -/
structure Exit where
  code : Nat
  output : String
  errors : String
  disk : Disk

namespace CommandLine

/-- The report of an error. A crash speaks for itself. -/
def complaint (e : Error) : String := (if e.isCrash then "" else "ERROR: ") ++ e.message ++ "\n"

/-- The report that an invocation makes of arguments it refuses. -/
def usage (complaint : String) : String :=
  "error: " ++ complaint ++
    "\n\nUsage: basic [OPTIONS] [PROGRAM]\n\nFor more information, try '--help'.\n"

/-- The end of an invocation without a request. -/
def refuse (disk : Disk) : Refusal → Exit
  | .version => ⟨0, "basic 0.1.0\n", "", disk⟩
  | .unknown arg => ⟨2, "", usage ("unexpected argument '" ++ arg ++ "' found"), disk⟩
  | .repeated option =>
    ⟨2, "", usage ("the argument '" ++ option ++ "' cannot be used multiple times"), disk⟩
  | .noValue option =>
    ⟨2, "", usage ("a value is required for '" ++ option ++ "' but none was supplied"), disk⟩

/-- Prints a text. -/
def print (text : String) : Session.Action Unit :=
  modify fun s => { s with machine := s.machine.print text }

/-! ### Programs in files -/

/-- The folder of a file. -/
def folderOf (path : String) : String :=
  match Disk.components path with
  | [] => ""
  | c :: cs =>
    let inner := (cs.dropLast.reverse.dropWhile fun c => c = "" || c = ".").reverse
    if cs.isEmpty then "" else "/".intercalate (c :: inner)

/-- The session that reads a program from a file. -/
def sessionOf (path : String) (further : Option String) (world : World) (disk : Disk)
    (input : Input) : Session :=
  .start (.search (.standard (some (folderOf path)) further)) Session.defaultLimit world disk input

/-- The program in octets: a saved one, or source text. -/
def programOf (path : String) (bytes : Octets) : Session.Action (Except Error Node) :=
  if Image.isImage bytes then return (Image.load bytes).mapError .image
  else
    match Text.decode bytes with
    | .error f => return .error (.disk (.badSource path f))
    | .ok source => Session.build [source]

/-- Writes a file. -/
def writeFile (disk : Disk) (path : String) (bytes : Octets) : Except DiskFault Disk :=
  (disk.locateForWriting path).map fun l => disk.put l bytes

/-- What is done with a program: its tree is printed and saved, or it is run. -/
def use (r : Request) (program : Node) : Session.Action (Except Error Unit) := do
  if r.showTree then print (program.display ++ "\n")
  match r.saveTo with
  | some path =>
    let s ← get
    match writeFile s.machine.disk path (Image.save program) with
    | .ok disk =>
      set { s with machine := { s.machine with disk := disk } }
      return .ok ()
    | .error f => return .error (.disk f)
  | none => if r.showTree then return .ok () else Session.runProgram program

/-- Reads a program and uses it. -/
def runFile (r : Request) (path : String) : Session.Action (Except Error Unit) := do
  match (← get).machine.disk.read path with
  | .error f => return .error (.disk f)
  | .ok bytes =>
    match ← programOf path bytes with
    | .error e => return .error e
    | .ok program => use r program

/-! ### Statements from the console -/

/-- What the interactive loop reports errors to, and the number of its next
line with a statement. -/
structure Dialogue where
  errors : String
  count : Nat

/-- The line that shows a value. -/
def valueLine (count : Nat) (r : Report) : String :=
  "Out [" ++ Integer.writeNat count ++ "]: " ++ r.text ++ "\n"

/-- Runs a statement; a value is printed, an error is noted. -/
def answer (n : Node) (d : Dialogue) : Session.Action Dialogue := do
  match ← Session.execute n with
  | .ok report =>
    if report.kind ≠ .nothing then print (valueLine d.count report)
    return d
  | .error e => return { d with errors := d.errors ++ complaint e }

/-- Runs statements one after another. -/
def answerAll : List Node → Dialogue → Session.Action Dialogue
  | [], d => return d
  | n :: ns, d => do answerAll ns (← answer n d)

/-- Takes in one line. -/
def takeLine (line : String) (d : Dialogue) : Session.Action Dialogue := do
  if Text.trim line = "" then return d
  else
    match ← Session.parse line with
    | .error e =>
      Session.abandon
      return { d with errors := d.errors ++ complaint e }
    | .ok [] => return d
    | .ok nodes =>
      let d ← answerAll nodes d
      return { d with count := d.count + 1 }

/-- The next line of the console. -/
def nextLine : Session.Action (Except DiskFault (Option String)) := do
  let s ← get
  let (line, input) := s.machine.input.loopLine
  set { s with machine := { s.machine with input := input } }
  return lineText line

/-- Takes in lines up to the end of the console, at most as many as the first argument says. -/
def interact : Nat → Dialogue → Session.Action (Except Error Unit × Dialogue)
  | 0, d => return (.ok (), d)
  | lines + 1, d => do
    match ← nextLine with
    | .error f => return (.error (.disk f), d)
    | .ok none => return (.ok (), d)
    | .ok (some line) => interact lines (← takeLine line d)

/-! ### Whole invocations -/

/-- The end of an invocation that was carried out. Nothing is kept any longer but what circles of
references keep. -/
def exit (result : Except Error Unit) (errors : String) (s : Session) : Exit :=
  let disk := (s.machine.sweep []).disk
  match result with
  | .ok () => ⟨0, s.machine.output, errors, disk⟩
  | .error e => ⟨1, s.machine.output, errors ++ complaint e, disk⟩

/-- Carries out a request. -/
def carryOut (r : Request) (further : Option String) (world : World) (disk : Disk)
    (input : Octets) : Option Exit :=
  match r.program with
  | some path =>
    ((runFile r path).run (sessionOf path further world disk (.ofOctets input))).map
      fun (result, s) => exit result "" s
  | none =>
    let s := Session.start (.search (.standard none further)) Session.defaultLimit world disk
      (.ofOctets input)
    ((interact (input.length + 1) ⟨"", 1⟩).run s).map fun ((result, d), s) =>
      exit result d.errors s

/-- An invocation: arguments, further folders with modules, the world, files, and the octets on the
console. It has no end if the program has none. -/
def run (args : List String) (further : Option String) (world : World) (disk : Disk)
    (input : Octets) : Option Exit :=
  match Request.read args with
  | .error e => some (refuse disk e)
  | .ok r => carryOut r further world disk input

end CommandLine
end LineBasic
