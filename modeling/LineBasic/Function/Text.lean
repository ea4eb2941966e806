import LineBasic.Function.Argument
import LineBasic.Text.Blank
import LineBasic.Text.Case

/-!
# Functions of strings

Positions and lengths count characters. Positions outside a string are no faults: the part of the
string that a window covers is what counts.

* `window` : the characters from one position up to another.
* `Strings.mid`, `Strings.left`, `Strings.right` : parts of a string.
* `Strings.asc`, `Strings.chr`, `Strings.length`, `Strings.space`, `Strings.mapped` : the others.
-/

namespace LineBasic
namespace Strings

/-- `count` characters after the first `skip` ones, as far as there are any; negative
numbers count as zero. -/
def window (cs : List Char) (skip count : Int) : List Char := (cs.drop skip.toNat).take count.toNat

/-- The `count` characters from the position `start` on, positions counting from one.
Positions before the first character use up some of the count, which goes no further down than
to the least integer. -/
def midChars (cs : List Char) (start count : Int64) : List Char :=
  if start < 1 then window cs 0 (Integer.subSaturated (Integer.addSaturated count start) 1).toInt
  else window cs (start - 1).toInt count.toInt

/-- The first `count` characters. -/
def leftChars (cs : List Char) (count : Int) : List Char := window cs 0 count

/-- The last `count` characters. -/
def rightChars (cs : List Char) (count : Int) : List Char :=
  window cs (cs.length - max count 0) (max count 0)

/-- A string value of characters. -/
def ofChars (cs : List Char) : Value := .text (String.ofList cs)

/-- A part of a string from a position on. -/
def mid : List Value → Except Error Value
  | [v, start, count] => do
    let s ← Argument.text "MID$" v
    let start ← Argument.whole "MID$" start
    let count ← Argument.whole "MID$" count
    return ofChars (midChars s.toList start count)
  | args => .error (Argument.countFault "MID$" 3 args)

/-- The start of a string. -/
def left : List Value → Except Error Value
  | [v, count] => do
    let s ← Argument.text "LEFT$" v
    let count ← Argument.whole "LEFT$" count
    return ofChars (leftChars s.toList count.toInt)
  | args => .error (Argument.countFault "LEFT$" 2 args)

/-- The end of a string. -/
def right : List Value → Except Error Value
  | [v, count] => do
    let s ← Argument.text "RIGHT$" v
    let count ← Argument.whole "RIGHT$" count
    return ofChars (rightChars s.toList count.toInt)
  | args => .error (Argument.countFault "RIGHT$" 2 args)

/-- The code of a single character. -/
def asc : List Value → Except Error Value
  | [v] => do
    let s ← Argument.text "ASC" v
    match s.toList with
    | [c] => return .int (Int64.ofNat c.toNat)
    | cs => .error (.run (.notOneCharacter cs.length))
  | args => .error (Argument.countFault "ASC" 1 args)

/-- The character with a code. -/
def chr : List Value → Except Error Value
  | [v] => do
    let code ← Argument.whole "CHR$" v
    let n := code.toInt
    if 0 ≤ n ∧ n.toNat.isValidChar then return .text (String.singleton (Char.ofNat n.toNat))
    else .error (.run (.notACharacter code))
  | args => .error (Argument.countFault "CHR$" 1 args)

/-- The number of characters of a string, or of elements of an array. -/
def length (h : Heap) (name : String) : List Value → Except Error Value
  | [.text s] => .ok (.int (Int64.ofNat s.length))
  | [.array id] => .ok (.int (Int64.ofNat (h.sequence id).size))
  | [v] => .error (Argument.kindFault name "a string or an array" v)
  | args => .error (Argument.countFault name 1 args)

/-- Spaces; a negative number of them counts as zero. -/
def space : List Value → Except Error Value
  | [v] => do
    let n ← Argument.whole "SPACE$" v
    let count := max n.toInt 0
    if count ≤ allocationLimit then return .text ("".pushn ' ' count.toNat)
    else .error (.run (.tooManySpaces count))
  | args => .error (Argument.countFault "SPACE$" 1 args)

/-- A function from strings to strings. -/
def mapped (name : String) (f : String → String) : List Value → Except Error Value
  | [v] => do
    let s ← Argument.text name v
    return .text (f s)
  | args => .error (Argument.countFault name 1 args)

end Strings
end LineBasic
