import LineBasic.Function.File
import LineBasic.Function.Math
import LineBasic.Function.Sequence
import LineBasic.Function.Text
import LineBasic.Value.Conversion

/-!
# Calling built-in functions

Most built-ins work on evaluated arguments. The others take part in evaluation and are not called
here: the operators, `SWAP`, `CLS`, and what talks to the console.

* `Builtin.onValues?` : a built-in on evaluated arguments, if it is one that works on them.
-/

namespace LineBasic

/-- The next random number. -/
def Numbers.random : List Value → Run Value
  | [] => do return .float (← Run.take Machine.random)
  | args => Run.fail (Argument.countFault "RND" 0 args)

/-- A function that looks at the sequences. -/
def Run.onHeap (f : Heap → Except Error Value) : Run Value := do
  Run.ofExcept (f (← Run.read fun m => m.heap))

/-- A built-in on evaluated arguments. -/
def Builtin.onValues? (b : Builtin) (args : List Value) : Option (Run Value) :=
  match b with
  | conversion type => some (Run.onHeap fun h => type.apply h args)
  | openFile => some (Files.openFile args)
  | closeFile => some (Files.closeFile args)
  | filePrint => some (Files.write "FPRINT" "\n" args)
  | fileWrite => some (Files.write "FWRITE" "" args)
  | fileInput => some (Files.readLine args)
  | math f => some (Run.ofExcept (f.apply args))
  | abs => some (Run.ofExcept (Numbers.abs args))
  | sqr => some (Run.ofExcept (Numbers.sqr args))
  | log => some (Run.ofExcept (Numbers.log args))
  | int => some (Run.ofExcept (Numbers.int args))
  | rnd => some (Numbers.random args)
  | asc => some (Run.ofExcept (Strings.asc args))
  | chr => some (Run.ofExcept (Strings.chr args))
  | lenText => some (Run.onHeap fun h => Strings.length h "LEN$" args)
  | len => some (Run.onHeap fun h => Strings.length h "LEN" args)
  | space => some (Run.ofExcept (Strings.space args))
  | mid => some (Run.ofExcept (Strings.mid args))
  | left => some (Run.ofExcept (Strings.left args))
  | right => some (Run.ofExcept (Strings.right args))
  | lowerCase => some (Run.ofExcept (Strings.mapped "LCASE$" Text.Case.toLower args))
  | upperCase => some (Run.ofExcept (Strings.mapped "UCASE$" Text.Case.toUpper args))
  | trim => some (Run.ofExcept (Strings.mapped "TRIM$" Text.trim args))
  | sleep => some (Run.ofExcept (Numbers.sleep args))
  | queue => some (Sequences.newQueue args)
  | stack => some (Sequences.newStack args)
  | push => some (Sequences.push args)
  | pop => some (Sequences.pop args)
  | front => some (Sequences.front args)
  | back => some (Sequences.back args)
  | pushFront => some (Sequences.pushFront args)
  | popFront => some (Sequences.popFront args)
  | operator _ => none
  | print => none
  | write => none
  | input => none
  | cls => none
  | swap => none

end LineBasic
