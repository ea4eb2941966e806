/-!
# Kinds of values

* `ValueKind` : what a value is, as programs see it; `ValueKind.name` is the name in messages.
-/

namespace LineBasic

/-- What a value is. -/
inductive ValueKind where
  | function | queue | stack | file | array | text | integer | decimal | truth | nothing
  deriving DecidableEq, Repr, Inhabited

/-- The name of a kind in messages. -/
def ValueKind.name : ValueKind → String
  | function => "FUNCTION"
  | queue => "QUEUE"
  | stack => "STACK"
  | file => "FILE"
  | array => "ARRAY"
  | text => "STRING"
  | integer => "INTEGER"
  | decimal => "DECIMAL"
  | truth => "BOOLEAN"
  | nothing => "NOTHING"

end LineBasic
