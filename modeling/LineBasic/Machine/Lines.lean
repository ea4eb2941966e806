import LineBasic.Error
import LineBasic.Text.Lines

/-!
# Reading lines

Files and the console are read line by line, but fetched in blocks: what was fetched and not yet
read waits in a buffer, and only an exhausted buffer makes the next block be fetched.

* `fetchLine` : the next line from a buffer and the octets behind it.
* `lineText` : the text of a line, nothing at the end.
* `Input` : the console, shared between the program and the interactive loop.
-/

namespace LineBasic

/-- The size of a block. -/
def blockSize : Nat := 8192

/-- The newline octet. -/
def newlineOctet : UInt8 := 10

/-- The octets up to and with the first newline, and the rest. -/
def splitLine? (bytes : Octets) : Option (Octets × Octets) :=
  let line := bytes.takeWhile (· ≠ newlineOctet)
  match bytes.drop line.length with
  | [] => none
  | c :: rest => some (line ++ [c], rest)

/-- A line, what is left in the buffer, and how many octets were fetched. -/
structure Fetched where
  line : Octets
  buffer : Octets
  count : Nat

/-- The next line from a buffer, then from the octets behind it, whole blocks
of which are fetched. -/
def fetchLine (buffer behind : Octets) : Fetched :=
  match splitLine? buffer with
  | some (line, rest) => ⟨line, rest, 0⟩
  | none =>
    match splitLine? behind with
    | some (line, _) =>
      let count := min behind.length ((line.length + blockSize - 1) / blockSize * blockSize)
      ⟨buffer ++ line, (behind.take count).drop line.length, count⟩
    | none => ⟨buffer ++ behind, [], behind.length⟩

/-- The text of a line without its end; no octets at all are the end of the source. -/
def lineText (line : Octets) : Except DiskFault (Option String) :=
  if line.isEmpty then .ok none
  else
    match Text.decode? line with
    | some s => .ok (some (String.ofList (Text.stripLineEnd s.toList)))
    | none => .error .notText

/-- The console: octets fetched for the program, fetched for the interactive loop, and not yet
fetched. -/
structure Input where
  taken : Octets
  waiting : Octets
  unread : Octets

namespace Input

/-- A console with octets to read. -/
def ofOctets (bytes : Octets) : Input := ⟨[], [], bytes⟩

/-- The next line for the program. It takes over all that waits for the interactive loop. -/
def programLine (i : Input) : Octets × Input :=
  match splitLine? i.taken with
  | some (line, rest) => (line, { i with taken := rest })
  | none =>
    let f := fetchLine (i.taken ++ i.waiting) i.unread
    (f.line, ⟨f.buffer, [], i.unread.drop f.count⟩)

/-- The next line for the interactive loop. -/
def loopLine (i : Input) : Octets × Input :=
  let f := fetchLine i.waiting i.unread
  (f.line, ⟨i.taken, f.buffer, i.unread.drop f.count⟩)

end Input
end LineBasic
