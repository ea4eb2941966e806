import LineBasic.Number.Layout

/-!
# Literals

The constants that tokens and trees carry. A decimal literal is kept as its bit pattern, so that a
saved program comes back bit for bit.

* `Literal.display` : how a literal is printed in token lists and trees.
-/

namespace LineBasic

/-- A constant of the source text. -/
inductive Literal where
  | int (n : Int64)
  | float (bits : UInt64)
  | text (s : String)
  | bool (b : Bool)
  | nothing
  deriving DecidableEq, Repr, Inhabited

namespace Literal

/-- Decimal literals always show a point or a power of ten; the power form starts at `10 ^ 16` and
below `10 ^ -4`. -/
def layout : Layout := ⟨fun place => place ≤ -4 || 17 ≤ place, fun _ => true⟩

/-- The names of the truth values. -/
def truthText (b : Bool) : String := if b then "True" else "False"

/-- The text of a literal; strings stand in quotes and are not escaped. -/
def display : Literal → String
  | int n => Integer.write n
  | float bits => layout.write (.ofBits bits)
  | text s => "\"" ++ s ++ "\""
  | bool b => truthText b
  | nothing => "Nothing"

end Literal
end LineBasic
