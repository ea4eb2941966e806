/-!
# Letters, digits and names

The language knows ASCII letters only: a name starts with a letter, `_` or `$`, goes on with these
and digits, and is the same name in either case.

* `isNameStart`, `isNamePart` : the characters of names.
* `upperCase`, `lowerCase` : ASCII case of a text; other characters are kept.
* `sameName` : equality up to ASCII case.
-/

namespace LineBasic
namespace Text

/-- An ASCII decimal digit. -/
def isDigit (c : Char) : Bool := '0' ≤ c && c ≤ '9'

/-- An ASCII letter of either case. -/
def isLetter (c : Char) : Bool := ('a' ≤ c && c ≤ 'z') || ('A' ≤ c && c ≤ 'Z')

/-- A character a name can start with. -/
def isNameStart (c : Char) : Bool := isLetter c || c = '_' || c = '$'

/-- A character a name can go on with. -/
def isNamePart (c : Char) : Bool := isNameStart c || isDigit c

/-- The text with its ASCII letters in upper case. -/
def upperCase (s : String) : String := String.ofList (s.toList.map Char.toUpper)

/-- The text with its ASCII letters in lower case. -/
def lowerCase (s : String) : String := String.ofList (s.toList.map Char.toLower)

/-- Equality of names: ASCII case does not count. -/
def sameName (s t : String) : Bool := upperCase s = upperCase t

end Text
end LineBasic
