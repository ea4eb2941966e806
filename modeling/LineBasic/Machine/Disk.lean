import LineBasic.Error

/-!
# Files on disk

A disk holds files and folders, and one of its folders is the working directory. Paths are texts
with slashes; they are walked component by component, from the root or from the working directory,
and a component is only passed through a folder.

* `Disk` : files with their contents, folders, and the working directory.
* `Disk.locate` : the place that a path leads to.
* `Disk.read`, `Disk.put`, `Disk.isFile` : contents of files.
-/

namespace LineBasic

/-- The components of a place, from the root on. -/
abbrev Location := List String

/-- Files and folders. A folder that holds something need not be listed. -/
structure Disk where
  files : List (Location × Octets)
  folders : List Location
  /-- The working directory. -/
  here : Location

namespace Disk

/-- Nothing on disk, and the root as the working directory. -/
def empty : Disk := ⟨[], [], []⟩

/-- The contents of the file at a place. -/
def file? (d : Disk) (l : Location) : Option Octets := d.files.lookup l

/-- Whether there is a folder at a place: the working directory, one that is listed, or one with
something below it. -/
def isFolder (d : Disk) (l : Location) : Bool :=
  l.isPrefixOf d.here || d.folders.any (fun f => l.isPrefixOf f) ||
    d.files.any (fun f => l.isPrefixOf f.1 && l ≠ f.1)

/-- The components of a path. -/
def components (path : String) : List String := (path.toList.splitOn '/').map String.ofList

/-- The longest name of a file, in octets. -/
def nameLimit : Nat := 255

/-- The longest path, in octets. -/
def pathLimit : Nat := 4095

/-- A folder that a path passes through. -/
def enter (d : Disk) (l : Location) : Except DiskFault Unit :=
  if d.isFolder l then .ok ()
  else if (d.file? l).isSome then .error .notDirectory
  else .error .notFound

/-- Walks components from a place on. The last one need not be there. The root is above itself. -/
def walk (d : Disk) : Location → List String → Except DiskFault Location
  | l, [] => .ok l
  | l, c :: cs =>
    match d.enter l with
    | .error f => .error f
    | .ok () =>
      if c = "" || c = "." then walk d l cs
      else if c = ".." then walk d l.dropLast cs
      else if nameLimit < (Text.encode c).length then .error .nameTooLong
      else walk d (l ++ [c]) cs

/-- Where a path starts: at the root if it starts with a slash. -/
def startOf (d : Disk) (path : String) : Location :=
  if path.toList.head? = some '/' then [] else d.here

/-- The place that a path leads to. -/
def locate (d : Disk) (path : String) : Except DiskFault Location :=
  if path.toList.contains (Char.ofNat 0) then .error .nulInName
  else if path = "" then .error .notFound
  else if pathLimit < (Text.encode path).length then .error .nameTooLong
  else d.walk (d.startOf path) (components path)

/-- The contents of the file that a path leads to. -/
def read (d : Disk) (path : String) : Except DiskFault Octets :=
  match d.locate path with
  | .error f => .error f
  | .ok l =>
    match d.file? l with
    | some bytes => .ok bytes
    | none => if d.isFolder l then .error .isDirectory else .error .notFound

/-- Whether a path leads to a file. -/
def isFile (d : Disk) (path : String) : Bool :=
  match d.locate path with
  | .error _ => false
  | .ok l => (d.file? l).isSome

/-- The files with contents put at a place. -/
def putIn (l : Location) (bytes : Octets) : List (Location × Octets) → List (Location × Octets)
  | [] => [(l, bytes)]
  | f :: fs => if f.1 = l then (l, bytes) :: fs else f :: putIn l bytes fs

/-- Puts contents at a place. -/
def put (d : Disk) (l : Location) (bytes : Octets) : Disk :=
  { d with files := putIn l bytes d.files }

/-- A path without the slashes at its end, unless there is nothing else in it. -/
def withoutSlashes (path : String) : String :=
  let cs := path.toList.reverse.dropWhile (· = '/')
  if cs.isEmpty then path else String.ofList cs.reverse

/-- The place of a file that may be written: it is there, or its folder is. A path with a slash at
its end can only mean a folder. -/
def locateForWriting (d : Disk) (path : String) : Except DiskFault Location :=
  match d.locate (withoutSlashes path) with
  | .error f => .error f
  | .ok l =>
    if d.isFolder l || withoutSlashes path ≠ path then .error .isDirectory
    else
      match d.enter l.dropLast with
      | .error f => .error f
      | .ok () => .ok l

/-- A disk with the given files below the working directory; a path that ends in a slash is a
folder. -/
def ofEntries (here : Location) (entries : List (String × Octets)) : Disk :=
  entries.foldl (fun d e =>
    let l := here ++ (components e.1).filter fun c => c ≠ "" && c ≠ "."
    if e.1.toList.getLast? = some '/' then { d with folders := d.folders ++ [l] }
    else d.put l e.2) ⟨[], [], here⟩

/-- All files below the working directory with their paths. -/
def listing (d : Disk) : List (String × Octets) :=
  (d.files.filter fun f => d.here.isPrefixOf f.1).map fun f =>
    ("/".intercalate (f.1.drop d.here.length), f.2)

theorem lookup_putIn_self (l : Location) (bytes : Octets) (fs : List (Location × Octets)) :
    (putIn l bytes fs).lookup l = some bytes := by
  induction fs with
  | nil => simp [putIn]
  | cons f fs ih =>
    obtain ⟨k, b⟩ := f
    by_cases h : k = l
    · simp [putIn, h]
    · have hb : (l == k) = false := by simp [Ne.symm h]
      simp [putIn, h, List.lookup_cons, hb, ih]

theorem file?_put_self (d : Disk) (l : Location) (bytes : Octets) :
    (d.put l bytes).file? l = some bytes := lookup_putIn_self l bytes d.files

end Disk
end LineBasic
