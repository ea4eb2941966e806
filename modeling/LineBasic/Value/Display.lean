import LineBasic.Value

/-!
# The text of values

Arrays show their elements. An array that is being shown already, further out, shows as dots, so
that arrays inside themselves have a finite text.

* `Value.display` : the text of a value.
-/

namespace LineBasic
namespace Value

/-- Whole decimals below `10 ^ 16` end in `.0`; no number has a power of ten. -/
def layout : Layout := ⟨fun _ => false, fun place => place ≤ 16⟩

/-- The text of a value that is not an array. -/
def plainText : Value → String
  | builtin b _ => "<Builtin " ++ b.name ++ ">"
  | closure c => "<Function " ++ c.name ++ ">"
  | queue _ => "<" ++ ValueKind.queue.name ++ ">"
  | stack _ => "<" ++ ValueKind.stack.name ++ ">"
  | file _ => "<" ++ ValueKind.file.name ++ ">"
  | array _ => ""
  | text s => s
  | int n => Integer.write n
  | float x => layout.write (.ofFloat x)
  | bool b => Literal.truthText b
  | nothing => "Nothing"

/-- The text of an array inside the arrays `path`. There is room for `depth` levels; as the arrays
on a path differ, the number of sequences is enough. -/
def arrayText (h : Heap) : Nat → List SequenceId → SequenceId → String
  | 0, _, _ => ""
  | depth + 1, path, id =>
    if path.contains id then "\x7b...\x7d"
    else
      let items := (h.sequence id).toList.map fun
        | .array inner => arrayText h depth (id :: path) inner
        | other => other.plainText
      "\x7b" ++ ", ".intercalate items ++ "\x7d"

/-- The text of a value. -/
def display (h : Heap) : Value → String
  | .array id => arrayText h (h.size + 2) [] id
  | other => other.plainText

end Value
end LineBasic
