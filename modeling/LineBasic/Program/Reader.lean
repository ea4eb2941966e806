import LineBasic.Program.Draft
import LineBasic.Program.Module
import LineBasic.Text.Lines
import LineBasic.Token.Scan

/-!
# Reading source text

Source arrives in pieces. Every piece is cut into lines, and the statement of each line is placed in
a draft. `USE` of a source module reads the lines of the module in place of the statement, with line
numbers of its own; a module that is being read may not be used again inside itself.

* `Reader` : a draft and the number of the next line.
* `Reader.parse` : one more piece, with the top-level nodes it finishes.
* `Reader.finish`, `Reader.abandon` : the end of the program, and of an unfinished construct.

A piece that fails leaves the statements before the failing one in place.
-/

namespace LineBasic

/-- The lines among tokens; each one keeps the token that ends it. -/
def splitLines : List Token → List (List Token)
  | [] => []
  | t :: ts =>
    if t.kind.endsLine then [t] :: splitLines ts
    else
      match splitLines ts with
      | [] => [[t]]
      | l :: ls => (t :: l) :: ls

/-- A draft, and the top-level nodes finished so far. -/
structure Progress where
  draft : Draft
  handed : Array Node

namespace Progress

/-- Notes a draft and what it hands out. -/
def advance (p : Progress) (r : Draft × Option Node) : Progress :=
  match r.2 with
  | some n => ⟨r.1, p.handed.push n⟩
  | none => ⟨r.1, p.handed⟩

/-- Adds a complete node. -/
def add (p : Progress) (n : Node) : Progress := p.advance (p.draft.attach n)

end Progress

/-- Progress, and the error that ended it. -/
abbrev Reading := Progress × Option Error

/-- How a `USE` of a name on a line is read. -/
abbrev Includer := String → Nat → Progress → Reading

namespace Reading

/-- Reads one line. -/
def line (use : Includer) (tokens : List Token) (p : Progress) : Reading :=
  match tokens with
  | [] => (p, none)
  | t :: _ =>
    if t.kind.endsLine then (p, none)
    else
      match Rule.statement tokens with
      | .error f => (p, some (.grammatical t.line f))
      | .ok (.use name, _) => use name t.line p
      | .ok (s, _) =>
        match p.draft.place t.line s with
        | .error f => (p, some (.grammatical t.line f))
        | .ok r => (p.advance r, none)

/-- Reads lines up to the first error. -/
def lines (use : Includer) : List (List Token) → Progress → Reading
  | [], p => (p, none)
  | l :: ls, p =>
    match line use l p with
    | (p', some e) => (p', some e)
    | (p', none) => lines use ls p'

/-- Reads a text whose first line has the number `first`; a text with a
lexical fault adds nothing. -/
def text (use : Includer) (first : Nat) (source : String) (p : Progress) : Reading :=
  let s := scan first source
  match s.error with
  | some e => (p, some (.lexical e))
  | none => lines use (splitLines s.tokens) p

/-- Reads a `USE` inside the modules `within`. There is room for `depth` further ones; as the
modules being read are different entries of the catalog, its length is enough. -/
def includeModule (catalog : Catalog) : Nat → List String → Includer
  | 0, _ => fun name line p => (p, some (.grammatical line (.circularUse name)))
  | depth + 1, within => fun name line p =>
    if within.contains name then (p, some (.grammatical line (.circularUse name)))
    else
      match catalog.lookup name with
      | some (.error f) => (p, some (.disk f))
      | some (.ok (.source _ source)) =>
        text (includeModule catalog depth (name :: within)) 1 source p
      | found =>
        match Bundle.ofName? name, found with
        | some _, _ => (p.add (.plain (.inclusion (.library name)) []), none)
        | none, some (.ok (.script path)) => (p.add (.plain (.inclusion (.script path)) []), none)
        | none, _ => (p, some (.moduleNotFound name))

/-- Reads a piece of the program itself. -/
def piece (catalog : Catalog) (first : Nat) (source : String) (d : Draft) : Reading :=
  text (includeModule catalog (catalog.length + 1) []) first source ⟨d, #[]⟩

end Reading

/-- A draft and the number of the next line. -/
structure Reader where
  draft : Draft
  line : Nat

namespace Reader

/-- Nothing read yet. -/
def start : Reader := ⟨.empty, 1⟩

/-- A construct waits for its closing statement. -/
def isOpen (r : Reader) : Bool := r.draft.isOpen

/-- Reads one more piece. The nodes handed out are those it finishes at the top level. Each piece
counts as one line at least, whether it can be read or not. -/
def parse (catalog : Catalog) (source : String) (r : Reader) :
    Reader × Except Error (List Node) :=
  let next := r.line + max 1 (Text.lineCount source)
  match Reading.piece catalog r.line source r.draft with
  | (p, some e) => (⟨p.draft, next⟩, .error e)
  | (p, none) => (⟨p.draft, next⟩, .ok p.handed.toList)

/-- Drops the construct that is open. -/
def abandon (r : Reader) : Reader := ⟨r.draft.abandon, r.line⟩

/-- The whole program. -/
def finish (r : Reader) : Except Error Node :=
  match r.draft.finish with
  | .ok n => .ok n
  | .error (line, f) => .error (.grammatical line f)

end Reader
end LineBasic
