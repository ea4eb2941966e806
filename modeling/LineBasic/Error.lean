import LineBasic.Grammar.Fault
import LineBasic.Token
import LineBasic.Tree.Image
import LineBasic.Value.Kind

/-!
# Errors

All that can go wrong, as causes.

* `DiskFault` : reading and writing files and the console.
* `RunFault` : running a tree.
* `Error` : the above, and faults of source text and of saved programs; `Error.isCrash` : the end
  that is not the report of an error.
* `Error.message` : the wording of an error, `Error.line?` : the source line it refers to.
-/

namespace LineBasic

/-- Why a file or the console cannot be read or written. -/
inductive DiskFault where
  | notFound
  | isDirectory
  | notDirectory
  | nulInName
  | nameTooLong
  | notText
  /-- Any other fault, in the words of the system. -/
  | system (words : String)
  /-- A source file that is not UTF-8. -/
  | badSource (path : String) (fault : Text.Utf8Fault)
  deriving DecidableEq, Repr

/-- The wording of a fault. -/
def DiskFault.message : DiskFault → String
  | notFound => "No such file or directory (os error 2)"
  | isDirectory => "Is a directory (os error 21)"
  | notDirectory => "Not a directory (os error 20)"
  | nulInName => "file name contained an unexpected NUL byte"
  | nameTooLong => "File name too long (os error 36)"
  | notText => "stream did not contain valid UTF-8"
  | system words => words
  | badSource path fault => path ++ ": " ++ fault.message

/-- What has to be a name. -/
inductive NameRole where
  | assignmentTarget | declared | declaredType
  deriving DecidableEq, Repr

/-- The wording of a role. -/
def NameRole.text : NameRole → String
  | assignmentTarget => "assignment target"
  | declared => "DIM target"
  | declaredType => "DIM type"

/-- The largest array that a declaration makes and the longest run of spaces. -/
def allocationLimit : Nat := 1 <<< 24

/-- Why a tree cannot be run any further. -/
inductive RunFault where
  | divisionByZero
  | integerOverflow
  | unsupported (op : Operator) (left right : ValueKind)
  | badNegation (found : ValueKind)
  | notBinary (op : Operator)
  | notCallable (name : String) (found : ValueKind)
  | notIndexable (found : ValueKind)
  | badIndex (found : ValueKind)
  | notAName (role : NameRole)
  | notAnArray (name : String) (found : ValueKind)
  | notAType (name : String) (found : ValueKind)
  | noType (found : ValueKind)
  | badSize (found : String)
  | sizeTooLarge (size : Nat)
  | notConvertible (kind : ValueKind) (text type : String)
  | notApplicable (name : String)
  | malformed (tag : String)
  | noBody (tag : String)
  | badBounds (counter limit step : ValueKind)
  | wrongArgument (name expected : String) (found : ValueKind)
  | notOneCharacter (length : Nat)
  | notACharacter (code : Int64)
  | tooManySpaces (count : Int)
  | outsideDomain (name : String)
  | badDuration (text : String)
  | swapTargets
  | empty (name : String) (found : ValueKind)
  | unknownMode (mode : String)
  | notWritable (path : String)
  | notReadable (path : String)
  deriving DecidableEq, Repr

/-- The wording of a fault. -/
def RunFault.message : RunFault → String
  | divisionByZero => "division by zero"
  | integerOverflow => "integer overflow"
  | unsupported op left right =>
    "unsupported operand types for " ++ op.symbol ++ ": " ++ left.name ++ " and " ++ right.name
  | badNegation found => "bad operand type for unary -: " ++ found.name
  | notBinary op => op.symbol ++ " is not a binary operator"
  | notCallable name found => name ++ " is not callable, found " ++ found.name
  | notIndexable found => "cannot index into " ++ found.name
  | badIndex found => "array index must be an integer, found " ++ found.name
  | notAName role => role.text ++ " must be a name"
  | notAnArray name found => name ++ " is not an array, found " ++ found.name
  | notAType name found => name ++ " is not a type, found " ++ found.name
  | noType found => "AS expects a type, found " ++ found.name
  | badSize found => "array size must be a non-negative integer, found " ++ found
  | sizeTooLarge size =>
    "array size " ++ Integer.writeNat size ++ " is too large (maximum " ++
      Integer.writeNat allocationLimit ++ ")"
  | notConvertible kind text type =>
    "cannot convert " ++ kind.name ++ " \"" ++ text ++ "\" to " ++ type
  | notApplicable name => name ++ " cannot be applied to evaluated arguments"
  | malformed tag => "malformed <" ++ tag ++ "> node"
  | noBody tag => "<" ++ tag ++ "> node has no body"
  | badBounds counter limit step =>
    "FOR bounds must be numbers, found " ++ counter.name ++ ", " ++ limit.name ++ " and " ++
      step.name
  | wrongArgument name expected found =>
    name ++ " expects " ++ expected ++ ", found " ++ found.name
  | notOneCharacter length =>
    "ASC expects a single character, found a string of length " ++ Integer.writeNat length
  | notACharacter code => "CHR$: " ++ Integer.write code ++ " is not a character"
  | tooManySpaces count =>
    "SPACE$: " ++ Integer.writeInt count ++ " is too large (maximum " ++
      Integer.writeNat allocationLimit ++ ")"
  | outsideDomain name => name ++ ": math domain error"
  | badDuration text => "SLEEP: invalid duration " ++ text
  | swapTargets => "SWAP expects two variable names"
  | empty name found => name ++ ": " ++ found.name ++ " is empty"
  | unknownMode mode =>
    "unknown file mode \"" ++ mode ++ "\", expected \"r\", \"w\" or \"a\""
  | notWritable path => path ++ " is not open for writing"
  | notReadable path => path ++ " is not open for reading"

/-- What can go wrong. -/
inductive Error where
  | lexical (error : LexError)
  | grammatical (line : Nat) (fault : SyntaxFault)
  | undefinedVariable (name : String)
  | indexOutOfRange (index : Int64) (max : Nat)
  | argumentCount (name : String) (expected got : Nat)
  | recursionLimit (limit : Nat)
  | moduleNotFound (name : String)
  | run (fault : RunFault)
  | image (fault : ImageFault)
  | disk (fault : DiskFault)
  /-- A child that a node does not have was read. This is nothing that a run reports: it ends
  all that is going on. -/
  | crash (index count : Nat)
  deriving DecidableEq, Repr

namespace Error

/-- The end is a crash and not the report of an error. -/
def isCrash : Error → Bool
  | crash _ _ => true
  | _ => false

/-- A message with the line it refers to. -/
def atLine (line : Nat) (message : String) : String :=
  "[line " ++ Integer.writeNat line ++ "] " ++ message

/-- The wording of an error. -/
def message : Error → String
  | lexical e => atLine e.line e.fault.message
  | grammatical line fault => atLine line fault.message
  | undefinedVariable name => "undefined variable \"" ++ name ++ "\""
  | indexOutOfRange index max =>
    "Index " ++ Integer.write index ++ " is out of range (maximum " ++ Integer.writeNat max ++ ")"
  | argumentCount name expected got =>
    name ++ " expects " ++ Integer.writeNat expected ++ " arguments but got " ++
      Integer.writeNat got
  | recursionLimit limit => "maximum call depth of " ++ Integer.writeNat limit ++ " exceeded"
  | moduleNotFound name => "No such module: " ++ name
  | run fault => fault.message
  | image fault => "cannot restore program: " ++ fault.message
  | disk fault => fault.message
  | crash index count =>
    "index out of bounds: the len is " ++ Integer.writeNat count ++ " but the index is " ++
      Integer.writeNat index

/-- The source line that an error refers to. -/
def line? : Error → Option Nat
  | lexical e => some e.line
  | grammatical line _ => some line
  | _ => none

end Error
end LineBasic
