import LineBasic.Error

/-!
# Modules

* `Bundle` : the libraries that come with the language.
* `Module` : what a name can stand for outside the program: source text, or a script.
* `Catalog` : the modules that are in reach, by name.
-/

namespace LineBasic

/-- A library that comes with the language. -/
inductive Bundle where
  | queues | deque
  deriving DecidableEq, Repr

/-- The name of a library. -/
def Bundle.name : Bundle → String
  | queues => "BQUEUE"
  | deque => "DEQUE"

/-- The library with a name, in any ASCII case. -/
def Bundle.ofName? (name : String) : Option Bundle :=
  [queues, deque].find? fun b => Text.sameName b.name name

/-- A module outside the program. -/
inductive Module where
  | source (path text : String)
  | script (path : String)
  deriving DecidableEq, Repr

/-- The modules in reach, by name; one whose file cannot be read is kept with the fault. -/
abbrev Catalog := List (String × Except DiskFault Module)

end LineBasic
