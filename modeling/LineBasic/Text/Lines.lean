/-!
# Lines of a text

* `lineCount` : how many lines a text has; a last line without a newline
  counts, an empty one does not.
* `stripLineEnd` : a line without its newline and without one carriage return before that newline.
-/

namespace LineBasic
namespace Text

/-- The number of lines among the characters: the newlines, and a last line that has none. -/
def countLines (cs : List Char) : Nat :=
  cs.count '\n' + if cs.getLast?.all (· = '\n') then 0 else 1

/-- The number of lines of a text. -/
def lineCount (s : String) : Nat := countLines s.toList

/-- A line without its end: a newline goes, and one carriage return before that newline. -/
def stripLineEnd (line : List Char) : List Char :=
  match line.reverse with
  | '\n' :: '\r' :: r => r.reverse
  | '\n' :: r => r.reverse
  | _ => line

end Text
end LineBasic
