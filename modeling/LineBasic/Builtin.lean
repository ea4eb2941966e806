import LineBasic.Operator
import LineBasic.Program.Module

/-!
# Built-in functions

* `TypeName` : the names of types, which are also conversions; `TypeName.base` is the type meant.
* `Builtin` : everything that is bound before a program starts or by a library; `Builtin.name` is
  the name it is bound to.
* `Builtin.initial`, `Bundle.contents` : what is bound at the start, and by each library.
-/

namespace LineBasic

/-- The types of the language. -/
inductive BaseType where
  | integer | decimal | text | truth
  deriving DecidableEq, Repr

/-- The names of types. -/
inductive TypeName where
  | integer | long | single | double | decimal | string | boolean | bool
  deriving DecidableEq, Repr

namespace TypeName

/-- Every name of a type, once. -/
def all : List TypeName := [integer, long, single, double, decimal, string, boolean, bool]

/-- The spelling of the name of a type. -/
def name : TypeName → String
  | integer => "INTEGER"
  | long => "LONG"
  | single => "SINGLE"
  | double => "DOUBLE"
  | decimal => "DECIMAL"
  | string => "STRING"
  | boolean => "BOOLEAN"
  | bool => "BOOL"

/-- The type that a name means. -/
def base : TypeName → BaseType
  | integer => .integer
  | long => .integer
  | single => .decimal
  | double => .decimal
  | decimal => .decimal
  | string => .text
  | boolean => .truth
  | bool => .truth

end TypeName

/-- The functions of one number. -/
inductive MathFunction where
  | sin | cos | tan | exp | atn
  deriving DecidableEq, Repr

/-- The name of a function of one number. -/
def MathFunction.name : MathFunction → String
  | sin => "SIN"
  | cos => "COS"
  | tan => "TAN"
  | exp => "EXP"
  | atn => "ATN"

/-- What is bound without a definition in the program. -/
inductive Builtin where
  | operator (op : Operator)
  | conversion (type : TypeName)
  | print | write | input
  | openFile | closeFile | filePrint | fileWrite | fileInput
  | math (f : MathFunction) | abs | sqr | log | int | rnd
  | asc | chr | lenText | len | space | mid | left | right | lowerCase | upperCase | trim
  | cls | sleep | swap
  | queue | stack | push | pop
  | front | back | pushFront | popFront
  deriving DecidableEq, Repr

namespace Builtin

/-- The name that a built-in is bound to. -/
def name : Builtin → String
  | operator op => op.name
  | conversion type => type.name
  | print => "PRINT"
  | write => "WRITE"
  | input => "INPUT"
  | openFile => "OPEN"
  | closeFile => "CLOSE"
  | filePrint => "FPRINT"
  | fileWrite => "FWRITE"
  | fileInput => "FINPUT"
  | math f => f.name
  | abs => "ABS"
  | sqr => "SQR"
  | log => "LOG"
  | int => "INT"
  | rnd => "RND"
  | asc => "ASC"
  | chr => "CHR$"
  | lenText => "LEN$"
  | len => "LEN"
  | space => "SPACE$"
  | mid => "MID$"
  | left => "LEFT$"
  | right => "RIGHT$"
  | lowerCase => "LCASE$"
  | upperCase => "UCASE$"
  | trim => "TRIM$"
  | cls => "CLS"
  | sleep => "SLEEP"
  | swap => "SWAP"
  | queue => "QUEUE"
  | stack => "STACK"
  | push => "PUSH"
  | pop => "POP"
  | front => "FRONT"
  | back => "BACK"
  | pushFront => "PUSHFRONT"
  | popFront => "POPFRONT"

/-- Whether a built-in works on files. -/
def usesFiles : Builtin → Bool
  | openFile | closeFile | filePrint | fileWrite | fileInput => true
  | _ => false

/-- What is bound when a program starts. -/
def initial : List Builtin :=
  Operator.all.map operator ++ TypeName.all.map conversion ++
    [print, write, input, openFile, closeFile, filePrint, fileWrite, fileInput] ++
    [math .sin, math .cos, math .tan, math .exp, math .atn, abs, sqr, log, int, rnd] ++
    [asc, chr, lenText, len, space, mid, left, right, lowerCase, upperCase, trim] ++
    [cls, sleep, swap]

end Builtin

/-- What a library binds. -/
def Bundle.contents : Bundle → List Builtin
  | queues => [.queue, .stack, .push, .pop]
  | deque => [.front, .back, .pushFront, .popFront, .push, .pop]

end LineBasic
