/-!
# Texts as octets

* `Octets` : what files, consoles and saved programs hold.
* `encode`, `decode` : a text as its UTF-8 octets, and back.
* `Utf8Fault` : where and how octets stop being UTF-8: an offending part of one to three octets, or
  an end inside a sequence that was good so far.

`faultAt` looks for the first fault. It walks the octets by `sequence`, which reads one encoded
character by the table of well-formed octet sequences.
-/

namespace LineBasic

/-- A finite sequence of octets. -/
abbrev Octets := List UInt8

namespace Text

/-- The first place where octets are not UTF-8. -/
inductive Utf8Fault where
  /-- The octets from `index` on, `length` of them, fit no character. -/
  | invalid (length index : Nat)
  /-- The octets end inside the character that starts at `index`. -/
  | incomplete (index : Nat)
  deriving DecidableEq, Repr

/-- The wording of a fault. -/
def Utf8Fault.message : Utf8Fault → String
  | .invalid n i =>
    "invalid utf-8 sequence of " ++ toString n ++ " bytes from index " ++ toString i
  | .incomplete i => "incomplete utf-8 byte sequence from index " ++ toString i

/-- An octet that continues a character. -/
def isContinuation (b : UInt8) : Bool := 0x80 ≤ b && b ≤ 0xBF

/-- How many octets follow the first one of a character; `none` if it cannot be first. -/
def followers (b : UInt8) : Option Nat :=
  if b < 0x80 then some 0
  else if 0xC2 ≤ b && b ≤ 0xDF then some 1
  else if 0xE0 ≤ b && b ≤ 0xEF then some 2
  else if 0xF0 ≤ b && b ≤ 0xF4 then some 3
  else none

/-- Whether `c` can be the second octet after `b`: no overlong form, no
surrogate, nothing too large. -/
def isSecond (b c : UInt8) : Bool :=
  if b = 0xE0 then 0xA0 ≤ c && c ≤ 0xBF
  else if b = 0xED then 0x80 ≤ c && c ≤ 0x9F
  else if b = 0xF0 then 0x90 ≤ c && c ≤ 0xBF
  else if b = 0xF4 then 0x80 ≤ c && c ≤ 0x8F
  else isContinuation c

/-- What one encoded character at the start of octets looks like. -/
inductive Sequence where
  /-- The first `length` octets are a character. -/
  | good (length : Nat)
  /-- The first `length` octets cannot be continued. -/
  | bad (length : Nat)
  /-- The octets end too early. -/
  | short
  deriving DecidableEq, Repr

/-- Reads `left` further octets of a character, `seen` octets of which were read. -/
def sequenceTail : Nat → Nat → Octets → Sequence
  | 0, seen, _ => .good seen
  | _ + 1, _, [] => .short
  | left + 1, seen, c :: r =>
    if isContinuation c then sequenceTail left (seen + 1) r else .bad seen

/-- Reads the character that starts with `b`. -/
def sequence (b : UInt8) (rest : Octets) : Sequence :=
  match followers b, rest with
  | none, _ => .bad 1
  | some 0, _ => .good 1
  | some (_ + 1), [] => .short
  | some (n + 1), c :: r => if isSecond b c then sequenceTail n 2 r else .bad 1

/-- The first fault of octets that start at `index`, with at most `fuel` characters looked at. -/
def faultFrom : Nat → Nat → Octets → Option Utf8Fault
  | 0, _, _ => none
  | _ + 1, _, [] => none
  | fuel + 1, index, b :: r =>
    match sequence b r with
    | .good n => faultFrom fuel (index + n) (r.drop (n - 1))
    | .bad n => some (.invalid n index)
    | .short => some (.incomplete index)

/-- The first fault of octets, if any. -/
def faultAt (bytes : Octets) : Option Utf8Fault := faultFrom bytes.length 0 bytes

/-- The UTF-8 octets of a text. -/
def encode (s : String) : Octets := s.toUTF8.data.toList

/-- The text that octets spell, or their first fault. -/
def decode (bytes : Octets) : Except Utf8Fault String :=
  match String.fromUTF8? ⟨bytes.toArray⟩ with
  | some s => .ok s
  | none => .error ((faultAt bytes).getD (.incomplete bytes.length))

/-- The text that octets spell, if they are UTF-8. -/
def decode? (bytes : Octets) : Option String := String.fromUTF8? ⟨bytes.toArray⟩

theorem encode_eq (s : String) : encode s = s.toList.flatMap String.utf8EncodeChar := by
  rw [encode, String.toUTF8, ← String.utf8Encode_toList]
  simp [List.utf8Encode]

theorem decode?_encode (s : String) : decode? (encode s) = some s := by
  have hs : (⟨(encode s).toArray⟩ : ByteArray) = s.toUTF8 := by simp [encode]
  rw [decode?, hs]
  simpa [String.fromUTF8?] using ⟨s.isValidUTF8, rfl⟩

theorem decode_encode (s : String) : decode (encode s) = .ok s := by
  have h := decode?_encode s
  simp only [decode?] at h
  simp [decode, h]

end Text
end LineBasic
