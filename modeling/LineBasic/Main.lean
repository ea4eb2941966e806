import LineBasic.CommandLine

/-!
# The program

Gathers what lies below the working directory and what comes from the console, carries out the
invocation, and writes back what it changed. Random numbers come from the system; scripts are not
run, and files elsewhere are not seen.
-/

namespace LineBasic

/-- Reads a stream to its end. -/
partial def readAll (s : IO.FS.Stream) (bytes : ByteArray) : IO ByteArray := do
  let chunk ← s.read 65536
  if chunk.isEmpty then return bytes else readAll s (bytes ++ chunk)

/-- The files and folders below a folder, as entries of a disk. -/
partial def gather (folder : String) (within : String) : IO (List (String × Octets)) := do
  let entries ← (IO.FS.DirEntry.mk folder "").path.readDir
  let mut found := []
  for e in entries do
    let path := within ++ e.fileName
    if ← e.path.isDir then
      found := found ++ (path ++ "/", []) :: (← gather (folder ++ "/" ++ e.fileName) (path ++ "/"))
    else
      found := (path, (← IO.FS.readBinFile e.path).data.toList) :: found
  return found

/-- Writes the files that are not as they were. -/
def writeBack (before after : Disk) : IO Unit := do
  for (path, bytes) in after.listing do
    if before.listing.lookup path != some bytes then IO.FS.writeBinFile path ⟨bytes.toArray⟩

/-- The place of the working directory. -/
def workingDirectory : IO Location := do
  let path ← IO.currentDir
  return (Disk.components path.toString).filter (· ≠ "")

/-- Draws that depend on a seed, and scripts that do nothing. -/
def worldOf (seed : Nat) : World :=
  let draw (n : Nat) : Float :=
    (randNat (mkStdGen (seed + n)) 0 9007199254740991).1.toFloat / 9007199254740992.0
  { World.still with draw := draw }

end LineBasic

open LineBasic in
/-- One invocation. -/
def main (args : List String) : IO UInt32 := do
  let disk := Disk.ofEntries (← workingDirectory) (← gather "." "")
  let input ← readAll (← IO.getStdin) ByteArray.empty
  let world := worldOf (← IO.rand 0 4294967295)
  match CommandLine.run args (← IO.getEnv "BASIC_PATH") world disk input.data.toList with
  | none => return 1
  | some e =>
    IO.print e.output
    IO.eprint e.errors
    writeBack disk e.disk
    return UInt32.ofNat e.code
