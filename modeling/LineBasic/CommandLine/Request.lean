import LineBasic.Text.Letter

/-!
# Arguments of the command line

* `Item` : one thing that arguments say; `Item.list` cuts arguments into items.
* `Request` : what the items ask for together; `Request.read` reads arguments.

Each option may be given once. A value is the next argument or is attached, after an equality sign
or not.
-/

namespace LineBasic

/-- One thing that arguments say. -/
inductive Item where
  | showTree
  | saveTo (path : String)
  | version
  | operand (path : String)
  /-- An argument that means nothing. -/
  | unknown (arg : String)
  /-- An option without its value. -/
  | noValue

namespace Item

/-- The value after an option letter, which may follow an equality sign. -/
def attached : List Char → String
  | '=' :: cs => String.ofList cs
  | cs => String.ofList cs

/-- The letters of an argument with one dash; the last one can wait for a value. -/
def letters (arg : String) : List Char → List Item × Bool
  | [] => ([], false)
  | 'a' :: cs =>
    let (items, waits) := letters arg cs
    (.showTree :: items, waits)
  | ['s'] => ([], true)
  | 's' :: cs => ([.saveTo (attached cs)], false)
  | 'V' :: cs =>
    let (items, waits) := letters arg cs
    (.version :: items, waits)
  | _ => ([.unknown arg], false)

/-- The mark of an attached path. -/
def saveMark : List Char := "--save=".toList

/-- What an argument with a dash says, and whether it waits for a value. -/
def ofOption (arg : String) : List Item × Bool :=
  if arg = "--ast" then ([.showTree], false)
  else if arg = "--version" then ([.version], false)
  else if arg = "--save" then ([], true)
  else if saveMark.isPrefixOf arg.toList then
    ([.saveTo (String.ofList (arg.toList.drop saveMark.length))], false)
  else
    match arg.toList with
    | '-' :: '-' :: _ => ([.unknown arg], false)
    | _ :: cs => letters arg cs
    | [] => ([], false)

/-- An argument that is an option. -/
def isOption (arg : String) : Bool :=
  match arg.toList with
  | '-' :: _ :: _ => true
  | _ => false

/-- What arguments say; `waits` if an option waits for its value. -/
def list : Bool → List String → List Item
  | true, [] => [.noValue]
  | false, [] => []
  | true, arg :: args => if isOption arg then [.noValue] else .saveTo arg :: list false args
  | false, arg :: args =>
    if arg = "--" then args.map .operand
    else if isOption arg then
      let (items, waits) := ofOption arg
      items ++ list waits args
    else .operand arg :: list false args

end Item

/-- What is asked for. -/
structure Request where
  program : Option String
  showTree : Bool
  saveTo : Option String
  deriving DecidableEq, Repr

/-- Why no request is made. -/
inductive Refusal where
  /-- Only the version is asked for. -/
  | version
  | unknown (arg : String)
  | repeated (option : String)
  | noValue (option : String)
  deriving DecidableEq, Repr

namespace Request

/-- Nothing asked for yet. -/
def empty : Request := ⟨none, false, none⟩

/-- The option that saves a tree. -/
def saveOption : String := "--save <PATH>"

/-- Adds an item. -/
def add (r : Request) : Item → Except Refusal Request
  | .showTree => if r.showTree then .error (.repeated "--ast") else .ok { r with showTree := true }
  | .saveTo path =>
    if r.saveTo.isSome then .error (.repeated saveOption)
    else if path = "" then .error (.noValue saveOption)
    else .ok { r with saveTo := some path }
  | .version => .error .version
  | .operand path =>
    if r.program.isSome then .error (.unknown path)
    else if path = "" then .error (.noValue "[PROGRAM]")
    else .ok { r with program := some path }
  | .unknown arg => .error (.unknown arg)
  | .noValue => .error (.noValue saveOption)

/-- Adds items up to the first that is refused. -/
def addAll (r : Request) : List Item → Except Refusal Request
  | [] => .ok r
  | i :: is =>
    match r.add i with
    | .ok r => r.addAll is
    | .error e => .error e

/-- What arguments ask for. -/
def read (args : List String) : Except Refusal Request := empty.addAll (Item.list false args)

end Request
end LineBasic
