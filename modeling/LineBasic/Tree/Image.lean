import LineBasic.Tree
import LineBasic.Text.Utf8

/-!
# Program images

A program is saved as octets: a mark, a format version, and the tree. Numbers are little-endian with
a fixed width, lists and texts have their length in front, and a choice has the index of its
alternative in front.

* `encode` : the image of a tree.
* `decode` : the tree of an image, and what follows it; `ImageFault` says why there is none.
* `save`, `load`, `isImage` : the same for whole files.
-/

namespace LineBasic

/-- Why octets are no image. -/
inductive ImageFault where
  | truncated
  | notAnImage
  | unsupportedVersion (version : Nat)
  | badChoice (index count : Nat)
  | badTruth (octet : Nat)
  | badOption (octet : Nat)
  | badText (fault : Text.Utf8Fault)
  deriving DecidableEq, Repr

/-- The wording of a fault. -/
def ImageFault.message : ImageFault → String
  | truncated => "io error: failed to fill whole buffer"
  | notAnImage => "not a saved program"
  | unsupportedVersion v => "unsupported format version " ++ Integer.writeNat v
  | badChoice i n =>
    "invalid value: integer `" ++ Integer.writeNat i ++ "`, expected variant index 0 <= i < " ++
      Integer.writeNat n
  | badTruth b =>
    "invalid u8 while decoding bool, expected 0 or 1, found " ++ Integer.writeNat b
  | badOption b => "tag for enum is not valid, found " ++ Integer.writeNat b
  | badText f => "string is not valid utf8: " ++ f.message

namespace Image

/-! ### Writing -/

/-- The `width` low octets of a number, the lowest first. -/
def number : Nat → Nat → Octets
  | 0, _ => []
  | width + 1, n => UInt8.ofNat n :: number width (n / 256)

/-- The index of an alternative. -/
def choice (index : Nat) : Octets := number 4 index

/-- A length or an index. -/
def size (n : Nat) : Octets := number 8 n

/-- A text with its length in octets. -/
def text (s : String) : Octets :=
  let bytes := Text.encode s
  size bytes.length ++ bytes

/-- A truth value. -/
def truth (b : Bool) : Octets := [if b then 1 else 0]

/-- Texts with their number. -/
def texts (ss : List String) : Octets := size ss.length ++ ss.flatMap text

/-- A constant. -/
def literal : Literal → Octets
  | .int n => choice 0 ++ number 8 n.toUInt64.toNat
  | .float bits => choice 1 ++ number 8 bits.toNat
  | .text s => choice 2 ++ text s
  | .bool b => choice 3 ++ truth b
  | .nothing => choice 4

/-- What a `USE` statement found. -/
def inclusion : Inclusion → Octets
  | .library name => choice 0 ++ text name
  | .script path => choice 1 ++ text path

/-- A construct. -/
def control : Control → Octets
  | .program => choice 0
  | .block => choice 1
  | .chain => choice 2
  | .branch fallback => choice 3 ++ truth fallback
  | .whileLoop => choice 4
  | .doLoop => choice 5
  | .forLoop counter => choice 6 ++ text counter
  | .subroutine name params => choice 7 ++ text name ++ texts params
  | .function name params => choice 8 ++ text name ++ texts params
  | .exitLoop => choice 9
  | .continueLoop => choice 10
  | .returned => choice 11
  | .inclusion what => choice 12 ++ inclusion what

/-- The kind of a node. -/
def kind : NodeKind → Octets
  | .control c => choice 0 ++ control c
  | .call target => choice 1 ++ text target
  | .name s => choice 2 ++ text s
  | .literal v => choice 3 ++ literal v
  | .array => choice 4

/-- The index of a body, if there is one. -/
def bodyIndex : Option UInt64 → Octets
  | none => [0]
  | some i => 1 :: size i.toNat

mutual

/-- The image of a tree. -/
def encode : Node → Octets
  | .mk k cs b => kind k ++ (size cs.length ++ (encodeAll cs ++ bodyIndex b))

/-- The images of trees one after another. -/
def encodeAll : List Node → Octets
  | [] => []
  | n :: ns => encode n ++ encodeAll ns

end

/-! ### Reading -/

/-- Reads something at the start of octets and returns what follows it. -/
abbrev Decoder (α : Type) := Octets → Except ImageFault (α × Octets)

namespace Decoder

/-- Reads nothing. -/
def pure {α : Type} (a : α) : Decoder α := fun bs => .ok (a, bs)

/-- Reads one thing, then another that can depend on it. -/
def bind {α β : Type} (p : Decoder α) (f : α → Decoder β) : Decoder β := fun bs =>
  match p bs with
  | .ok (a, rest) => f a rest
  | .error e => .error e

/-- Fails. -/
def fail {α : Type} (e : ImageFault) : Decoder α := fun _ => .error e

/-- Reads one thing and converts it. -/
def map {α β : Type} (f : α → β) (p : Decoder α) : Decoder β := p.bind fun a => pure (f a)

end Decoder

/-- The first `n` octets and what follows them. -/
def splitExact : Nat → Octets → Option (Octets × Octets)
  | 0, bs => some ([], bs)
  | _ + 1, [] => none
  | n + 1, b :: bs => (splitExact n bs).map fun p => (b :: p.1, p.2)

/-- Reads `n` octets. -/
def readOctets (n : Nat) : Decoder Octets := fun bs =>
  match splitExact n bs with
  | some p => .ok p
  | none => .error .truncated

/-- The number whose octets these are, the lowest first. -/
def value : Octets → Nat
  | [] => 0
  | b :: bs => b.toNat + 256 * value bs

/-- Reads a number of a width. -/
def readNumber (width : Nat) : Decoder Nat := (readOctets width).map value

/-- Reads one octet. -/
def readOctet : Decoder Nat := readNumber 1

/-- Reads the index of one of `count` alternatives. -/
def readChoice (count : Nat) : Decoder Nat :=
  (readNumber 4).bind fun i => if i < count then .pure i else .fail (.badChoice i count)

/-- Reads a length or an index. -/
def readSize : Decoder Nat := readNumber 8

/-- Reads a text. -/
def readText : Decoder String :=
  readSize.bind fun n => (readOctets n).bind fun bytes =>
    match Text.decode bytes with
    | .ok s => .pure s
    | .error f => .fail (.badText f)

/-- Reads a truth value. -/
def readTruth : Decoder Bool :=
  readOctet.bind fun b =>
    if b = 0 then .pure false else if b = 1 then .pure true else .fail (.badTruth b)

/-- Reads `n` things one after another. -/
def readMany {α : Type} (p : Decoder α) : Nat → Decoder (List α)
  | 0 => .pure []
  | n + 1 => p.bind fun a => (readMany p n).map fun as => a :: as

/-- Reads things with their number in front. -/
def readList {α : Type} (p : Decoder α) : Decoder (List α) := readSize.bind (readMany p)

/-- Reads a constant. -/
def readLiteral : Decoder Literal :=
  (readChoice 5).bind fun
    | 0 => (readNumber 8).map fun n => .int (UInt64.ofNat n).toInt64
    | 1 => (readNumber 8).map fun n => .float (UInt64.ofNat n)
    | 2 => readText.map .text
    | 3 => readTruth.map .bool
    | _ => .pure .nothing

/-- Reads what a `USE` statement found. -/
def readInclusion : Decoder Inclusion :=
  (readChoice 2).bind fun
    | 0 => readText.map .library
    | _ => readText.map .script

/-- Reads a construct. -/
def readControl : Decoder Control :=
  (readChoice 13).bind fun
    | 0 => .pure .program
    | 1 => .pure .block
    | 2 => .pure .chain
    | 3 => readTruth.map .branch
    | 4 => .pure .whileLoop
    | 5 => .pure .doLoop
    | 6 => readText.map .forLoop
    | 7 => readText.bind fun name => (readList readText).map (.subroutine name)
    | 8 => readText.bind fun name => (readList readText).map (.function name)
    | 9 => .pure .exitLoop
    | 10 => .pure .continueLoop
    | 11 => .pure .returned
    | _ => readInclusion.map .inclusion

/-- Reads the kind of a node. -/
def readKind : Decoder NodeKind :=
  (readChoice 5).bind fun
    | 0 => readControl.map .control
    | 1 => readText.map .call
    | 2 => readText.map .name
    | 3 => readLiteral.map .literal
    | _ => .pure .array

/-- Reads the index of a body, if there is one. -/
def readBodyIndex : Decoder (Option UInt64) :=
  readOctet.bind fun b =>
    if b = 0 then .pure none
    else if b = 1 then readSize.map fun n => some (UInt64.ofNat n)
    else .fail (.badOption b)

/-- Reads a tree of a height up to `fuel`. -/
def decodeUpTo : Nat → Decoder Node
  | 0 => .fail .truncated
  | fuel + 1 =>
    readKind.bind fun k => (readList (decodeUpTo fuel)).bind fun cs =>
      readBodyIndex.map fun b => .mk k cs b

/-- Reads a tree; it is not higher than its image is long. -/
def decode : Decoder Node := fun bs => decodeUpTo (bs.length + 1) bs

/-! ### Whole files -/

/-- The octets that every image starts with. -/
def mark : Octets := [0x42, 0x41, 0x53, 0x54]

/-- The format version. -/
def version : Nat := 1

/-- The octets before the tree. -/
def header : Octets := mark ++ number 2 version

/-- The saved form of a program. -/
def save (program : Node) : Octets := header ++ encode program

/-- Whether octets start like an image. -/
def isImage (bytes : Octets) : Bool := mark.isPrefixOf bytes

/-- Reads the octets before the tree. -/
def readHeader : Decoder Unit :=
  (readOctets 4).bind fun m => (readNumber 2).bind fun v =>
    if m ≠ mark then .fail .notAnImage
    else if v ≠ version then .fail (.unsupportedVersion v)
    else .pure ()

/-- The program of a saved form; octets after the tree are ignored. -/
def load (bytes : Octets) : Except ImageFault Node :=
  match readHeader.bind (fun _ => decode) bytes with
  | .ok (program, _) => .ok program
  | .error e => .error e

end Image
end LineBasic
