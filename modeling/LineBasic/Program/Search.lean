import LineBasic.Machine.Disk
import LineBasic.Program.Module

/-!
# Searching modules on disk

A module `NAME` is the first file `NAME.bas` in a list of folders, or else the first file `NAME.sh`;
in each folder the name is tried as it is and then in lower case.

* `SearchPath.resolve` : the module with a name.
* `SearchPath.catalog` : all modules that a program can name.
* `Loader` : the ways to come by modules.
-/

namespace LineBasic

/-- Folders, in the order they are searched. -/
abbrev SearchPath := List String

namespace SearchPath

/-- The path of a file in a folder. -/
def join (folder file : String) : String :=
  if file.toList.head? = some '/' || folder = "" then file
  else if folder.toList.getLast? = some '/' then folder ++ file
  else folder ++ "/" ++ file

/-- The first file with a name and an extension. -/
def find? (d : Disk) (folders : SearchPath) (name extension : String) : Option String :=
  folders.findSome? fun folder =>
    ([name, Text.lowerCase name].map fun stem => join folder (stem ++ "." ++ extension)).find?
      d.isFile

/-- The extension of source text. -/
def sourceExtension : String := "bas"

/-- The extension of scripts. -/
def scriptExtension : String := "sh"

/-- The text of a file. -/
def readText (d : Disk) (path : String) : Except DiskFault String :=
  match d.read path with
  | .error f => .error f
  | .ok bytes =>
    match Text.decode? bytes with
    | some s => .ok s
    | none => .error .notText

/-- The module with a name, if there is one. -/
def resolve (d : Disk) (folders : SearchPath) (name : String) : Except DiskFault (Option Module) :=
  match find? d folders name sourceExtension with
  | some path => (readText d path).map fun s => some (.source path s)
  | none => .ok ((find? d folders name scriptExtension).map .script)

/-- The name of a file without an extension. -/
def stem? (file extension : String) : Option String :=
  let ending := ("." ++ extension).toList
  if ending.isSuffixOf file.toList then
    some (String.ofList (file.toList.take (file.length - ending.length)))
  else none

/-- The names, in upper case, that files on disk have as modules. -/
def names (d : Disk) : List String :=
  (d.files.filterMap fun f =>
    let file := f.1.getLastD ""
    ((stem? file sourceExtension).orElse fun _ => stem? file scriptExtension).map
      Text.upperCase).eraseDups

/-- All modules by their names in upper case. -/
def catalog (d : Disk) (folders : SearchPath) : Catalog :=
  (names d).filterMap fun name =>
    match resolve d folders name with
    | .ok (some m) => some (name, .ok m)
    | .ok none => none
    | .error f => some (name, .error f)

/-- The folder of the program, if there is one, the working directory, and further folders with
colons between them. -/
def standard (base : Option String) (further : Option String) : SearchPath :=
  base.toList ++ ["."] ++ (further.map fun s => s.splitOn ":").getD []

end SearchPath

/-- Where modules come from. -/
inductive Loader where
  | fixed (modules : Catalog)
  | search (folders : SearchPath)

/-- The modules in reach. -/
def Loader.catalog (d : Disk) : Loader → Catalog
  | fixed modules => modules
  | search folders => SearchPath.catalog d folders

end LineBasic
