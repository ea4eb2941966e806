import LineBasic.Machine.Disk
import LineBasic.Machine.Lines

/-!
# Open files

A file is open for reading or for writing, or closed. Lines are read in blocks; what is written
waits in a buffer until it is full or the file is closed.

* `OpenFile` : the path it was opened by, its place, and its state.
* `OpenFile.openAs` : opening by a mode.
* `OpenFile.readLine`, `OpenFile.write`, `OpenFile.close` : a file with the disk before and after.
-/

namespace LineBasic

/-- How a file is written: at a position of its own, or always at the end. -/
inductive WriteMode where
  | at (position : Nat)
  | append
  deriving DecidableEq, Repr

/-- What can be done with an open file. -/
inductive FileState where
  | reading (position : Nat) (buffer : Octets)
  | writing (mode : WriteMode) (buffer : Octets)
  | closed

/-- A file that a program opened. -/
structure OpenFile where
  path : String
  location : Location
  state : FileState

namespace OpenFile

/-- Opens a file for reading; folders can be opened, but not read. -/
def openReading (d : Disk) (path : String) : Except DiskFault OpenFile :=
  match d.locate path with
  | .error f => .error f
  | .ok l =>
    if (d.file? l).isSome || d.isFolder l then .ok ⟨path, l, .reading 0 []⟩ else .error .notFound

/-- Opens a file for writing from its start and empties it. -/
def openWriting (d : Disk) (path : String) : Except DiskFault (OpenFile × Disk) :=
  (d.locateForWriting path).map fun l => (⟨path, l, .writing (.at 0) []⟩, d.put l [])

/-- Opens a file for writing at its end. -/
def openAppending (d : Disk) (path : String) : Except DiskFault (OpenFile × Disk) :=
  (d.locateForWriting path).map fun l =>
    (⟨path, l, .writing .append []⟩, d.put l ((d.file? l).getD []))

/-- Opens a file by its mode. -/
def openAs (d : Disk) (path mode : String) : Except Error (OpenFile × Disk) :=
  if mode = "r" then
    match openReading d path with
    | .ok f => .ok (f, d)
    | .error f => .error (.disk f)
  else if mode = "w" then (openWriting d path).mapError .disk
  else if mode = "a" then (openAppending d path).mapError .disk
  else .error (.run (.unknownMode mode))

/-! ### Reading -/

/-- Reads a line; nothing is left at the end of the file. -/
def readLine (d : Disk) (f : OpenFile) : Except Error (Option String) × OpenFile :=
  match f.state with
  | .reading position buffer =>
    if (d.file? f.location).isNone && d.isFolder f.location then
      (.error (.disk .isDirectory), f)
    else
      let contents := (d.file? f.location).getD []
      let r := fetchLine buffer (contents.drop position)
      ((lineText r.line).mapError .disk, { f with state := .reading (position + r.count) r.buffer })
  | _ => (.error (.run (.notReadable f.path)), f)

/-! ### Writing -/

/-- The contents with octets written over them from a position on; a gap is filled with zeros. -/
def overwrite (contents : Octets) (position : Nat) (bytes : Octets) : Octets :=
  contents.take position ++ List.replicate (position - contents.length) 0 ++ bytes ++
    contents.drop (position + bytes.length)

/-- Writes octets to the disk. -/
def emit (d : Disk) (l : Location) (mode : WriteMode) (bytes : Octets) : Disk × WriteMode :=
  let contents := (d.file? l).getD []
  match mode with
  | .append => (d.put l (contents ++ bytes), .append)
  | .at position => (d.put l (overwrite contents position bytes), .at (position + bytes.length))

/-- Writes octets that may not be empty. -/
def flush (d : Disk) (l : Location) (mode : WriteMode) (bytes : Octets) : Disk × WriteMode :=
  if bytes.isEmpty then (d, mode) else emit d l mode bytes

/-- Writes through a buffer of one block. The buffer is emptied when the octets do not fit in it,
and octets that fill a block go past it. -/
def writeBuffered (d : Disk) (l : Location) (mode : WriteMode) (buffer bytes : Octets) :
    Disk × FileState :=
  let room := blockSize - buffer.length
  if bytes.length < room then (d, .writing mode (buffer ++ bytes))
  else
    let (d, mode, buffer) :=
      if room < bytes.length then
        let (d', mode') := flush d l mode buffer
        (d', mode', [])
      else (d, mode, buffer)
    if blockSize ≤ bytes.length then
      let (d', mode') := emit d l mode bytes
      (d', .writing mode' buffer)
    else (d, .writing mode (buffer ++ bytes))

/-- Writes a text. -/
def write (d : Disk) (f : OpenFile) (s : String) : Except Error (Disk × OpenFile) :=
  match f.state with
  | .writing mode buffer =>
    let r := writeBuffered d f.location mode buffer (Text.encode s)
    .ok (r.1, { f with state := r.2 })
  | _ => .error (.run (.notWritable f.path))

/-- Whether something waits to be written. -/
def isWaiting (f : OpenFile) : Bool :=
  match f.state with
  | .writing _ buffer => !buffer.isEmpty
  | _ => false

/-- Closes a file; what waits in its buffer is written. -/
def close (d : Disk) (f : OpenFile) : Disk × OpenFile :=
  match f.state with
  | .writing mode buffer =>
    ((flush d f.location mode buffer).1, { f with state := .closed })
  | _ => (d, { f with state := .closed })

end OpenFile
end LineBasic
