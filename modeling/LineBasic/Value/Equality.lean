import LineBasic.Value

/-!
# Equality of values

Numbers are compared across the two kinds of numbers, functions and objects by identity, and arrays
element by element. Arrays can contain themselves: a pair of arrays that is being compared already,
further out, is taken as equal.

* `Value.equals` : equality as programs see it.
-/

namespace LineBasic
namespace Value

/-- Equality of two values that are not both arrays. -/
def plainEquals : Value → Value → Bool
  | builtin a i, builtin b j => a = b && i = j
  | closure c, closure d => c.serial = d.serial
  | queue i, queue j => i = j
  | stack i, stack j => i = j
  | file i, file j => i = j
  | text s, text t => s = t
  | int m, int n => m = n
  | int m, float y => m.toFloat == y
  | float x, int n => x == n.toFloat
  | float x, float y => x == y
  | bool a, bool b => a = b
  | nothing, nothing => true
  | _, _ => false

/-- Equality of two arrays inside the pairs `within`. There is room for `depth` levels; as the pairs
differ, the number of pairs of sequences is enough. -/
def arraysEqual (h : Heap) : Nat → List (SequenceId × SequenceId) → SequenceId → SequenceId → Bool
  | 0, _, _, _ => true
  | depth + 1, within, a, b =>
    if a = b || within.contains (a, b) then true
    else
      let xs := (h.sequence a).toList
      let ys := (h.sequence b).toList
      xs.length = ys.length && (xs.zip ys).all fun
        | (.array i, .array j) => arraysEqual h depth ((a, b) :: within) i j
        | (x, y) => plainEquals x y

/-- Equality of values. -/
def equals (h : Heap) : Value → Value → Bool
  | .array a, .array b => arraysEqual h (h.size * h.size + 2) [] a b
  | x, y => plainEquals x y

end Value
end LineBasic
