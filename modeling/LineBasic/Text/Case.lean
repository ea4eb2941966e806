import LineBasic.Text.Case.Data

/-!
# Full case mapping

* `toUpper`, `toLower` : a text in one case, by the full mappings of the Unicode standard.

A mapping can yield several characters. Lower case has one rule with context: a capital sigma at
the end of a word becomes the final form. It stands at the end of a word if a cased character comes
before it and none after it, ignorable characters being skipped on both sides.
-/

namespace LineBasic
namespace Text
namespace Case

/-- Membership in a list of ranges. -/
def inRanges (ranges : List (Nat × Nat)) (n : Nat) : Bool :=
  ranges.any fun r => r.1 ≤ n && n ≤ r.2

/-- Whether a run moves the character. -/
def Run.covers (r : Run) (n : Nat) : Bool :=
  r.first ≤ n && n ≤ r.last && (n - r.first) % r.step = 0

/-- The mapping of one character by a table of specials and a table of runs. -/
def mapChar (specials : List (Nat × List Nat)) (runs : List Run) (c : Char) : List Char :=
  match specials.lookup c.toNat with
  | some ns => ns.map Char.ofNat
  | none =>
    match runs.find? (·.covers c.toNat) with
    | some r => [Char.ofNat (c.toNat + r.offset).toNat]
    | none => [c]

/-- The upper case of one character. -/
def upperChar (c : Char) : List Char :=
  if c.toNat < 0x80 then [c.toUpper] else mapChar upperSpecials upperRuns c

/-- The lower case of one character, out of context. -/
def lowerChar (c : Char) : List Char :=
  if c.toNat < 0x80 then [c.toLower] else mapChar lowerSpecials lowerRuns c

/-- Whether the first character that is not ignorable is cased. -/
def startsCased (cs : List Char) : Bool :=
  match cs.dropWhile fun c => inRanges ignorableRanges c.toNat with
  | [] => false
  | c :: _ => inRanges casedRanges c.toNat

/-- The capital sigma. -/
def capitalSigma : Char := Char.ofNat 0x3A3

/-- The small sigma at the end of a word. -/
def finalSigma : Char := Char.ofNat 0x3C2

/-- Lower case of the characters after `before`, which is reversed; the result is reversed too. -/
def lowerAfter : List Char → List Char → List Char → List Char
  | _, [], done => done
  | before, c :: r, done =>
    let mapped :=
      if c = capitalSigma && startsCased before && !startsCased r then [finalSigma] else lowerChar c
    lowerAfter (c :: before) r (mapped.reverse ++ done)

/-- The text in upper case. -/
def toUpper (s : String) : String := String.ofList (s.toList.flatMap upperChar)

/-- The text in lower case. -/
def toLower (s : String) : String := String.ofList (lowerAfter [] s.toList []).reverse

end Case
end Text
end LineBasic
