import Mathlib.Data.List.DropRight
import LineBasic.Evaluation
import LineBasic.Proofs.Integers

/-!
# Parts of strings

The functions that cut strings take any integers. `MID$` treats two kinds of starts apart: from the
first position on, the window begins after as many characters as come before it; before the first
position, the count is made smaller in two steps that stop at the least integer instead of failing.
Both come to one window of positions, whose ends are numbers without bounds.

* `Strings.between` : the characters at the positions from one number up to another,
  told by their positions.
* `Strings.between_eq_take` : such characters stand together.
* `Strings.midChars_eq_between` : the two kinds of starts come to one window.
* `Strings.rightChars_eq_rtake` : the window at the end of a string.
* `Builtin.Gives` : a function gives a value for values of its arguments, wherever it is called.
* `substring_windows` : what `MID$`, `LEFT$` and `RIGHT$` give for all integers.
-/

namespace LineBasic
namespace Integer

theorem toInt_saturate (n : Int) :
    (saturate n).toInt = max Int64.minValue.toInt (min n Int64.maxValue.toInt) := by
  have hmin : Int64.minValue.toInt = -2 ^ 63 := rfl
  have hmax : Int64.maxValue.toInt = 2 ^ 63 - 1 := rfl
  unfold saturate
  split
  · omega
  split
  · omega
  · have hfits : Fits n := ⟨by omega, by omega⟩
    rw [hfits.toInt_ofInt]
    omega

/-- Less one, an integer from one on is still an integer of 64 bits. -/
theorem toInt_sub_one {n : Int64} (h : 1 ≤ n) : (n - 1).toInt = n.toInt - 1 := by
  have hn : 1 ≤ n.toInt := Int64.le_iff_toInt_le.1 h
  have hmax := n.toInt_lt
  rw [Int64.toInt_sub, show (1 : Int64).toInt = 1 from rfl]
  exact Int.bmod_eq_of_le (by omega) (by omega)

end Integer

namespace Strings

variable {cs : List Char}

/-- The characters whose positions are at least `first` and less than `last`,
positions counting from one. -/
def between (cs : List Char) (first last : Int) : List Char :=
  ((cs.zipIdx 1).filter fun p => first ≤ p.2 ∧ p.2 < last).map Prod.fst

/-- Where positions count from any number, those of a window are passed over up to its start
and then taken together. -/
theorem filter_zipIdx (cs : List Char) (first last : Int) (k : Nat) :
    ((cs.zipIdx k).filter fun p => first ≤ p.2 ∧ p.2 < last).map Prod.fst =
      (cs.drop (first - k).toNat).take (last - max first k).toNat := by
  induction cs generalizing k with
  | nil => simp
  | cons c cs ih =>
    have hrest := ih (k + 1)
    rw [List.zipIdx_cons, List.filter_cons]
    by_cases hfirst : (k : Int) < first
    · -- The position is before the window.
      have hskip : (first - k).toNat = (first - (k + 1 : Nat)).toNat + 1 := by omega
      have hcount : last - max first k = last - max first (k + 1 : Nat) := by omega
      rw [if_neg (by simp; omega), hrest, hskip, List.drop_succ_cons, hcount]
    have hskip : (first - k).toNat = 0 := by omega
    have hnext : (first - (k + 1 : Nat)).toNat = 0 := by omega
    rw [hnext, List.drop_zero] at hrest
    by_cases hlast : (k : Int) < last
    · have hcount :
          (last - max first k).toNat = (last - max first (k + 1 : Nat)).toNat + 1 := by omega
      rw [if_pos (by simp; omega), List.map_cons, hrest, hskip, hcount, List.drop_zero,
        List.take_succ_cons]
    · have hcount : (last - max first k).toNat = 0 := by omega
      have hnone : (last - max first (k + 1 : Nat)).toNat = 0 := by omega
      rw [if_neg (by simp; omega), hrest, hcount, hnone, List.take_zero, List.take_zero]

theorem between_eq_take (cs : List Char) (first last : Int) :
    between cs first last = (cs.drop (first - 1).toNat).take (last - max first 1).toNat :=
  filter_zipIdx cs first last 1

/-- A start before the first position makes the count smaller. The two steps can stop at the least
integer, and are negative then as the exact count is. -/
theorem toNat_clamped {start count : Int64} (h : start < 1) :
    (Integer.subSaturated (Integer.addSaturated count start) 1).toInt.toNat =
      (start.toInt + count.toInt - 1).toNat := by
  have hstart : start.toInt < 1 := Int64.lt_iff_toInt_lt.1 h
  have hcount := count.toInt_le
  have hmin : Int64.minValue.toInt = -2 ^ 63 := rfl
  have hmax : Int64.maxValue.toInt = 2 ^ 63 - 1 := rfl
  have hone : (1 : Int64).toInt = 1 := rfl
  rw [Integer.subSaturated, Integer.addSaturated, Integer.toInt_saturate, Integer.toInt_saturate]
  omega

theorem midChars_eq_between (cs : List Char) (start count : Int64) :
    midChars cs start count = between cs start.toInt (start.toInt + count.toInt) := by
  rw [between_eq_take, midChars]
  split
  · next h =>
    have hstart : start.toInt < 1 := Int64.lt_iff_toInt_lt.1 h
    have hskip : (start.toInt - 1).toNat = 0 := by omega
    rw [window, toNat_clamped h, hskip, max_eq_right hstart.le]
    rfl
  · next h =>
    have hstart : 1 ≤ start := Int64.not_lt.1 h
    have hpos : 1 ≤ start.toInt := Int64.le_iff_toInt_le.1 hstart
    rw [window, Integer.toInt_sub_one hstart, max_eq_left hpos, add_sub_cancel_left]

theorem leftChars_eq_between (cs : List Char) (count : Int) :
    leftChars cs count = between cs 1 (1 + count) := by
  rw [between_eq_take, max_self, add_sub_cancel_left]
  rfl

/-- The window at the end begins before the string where more characters are asked for than there
are; it then has the whole string. -/
theorem rightChars_eq_rtake (cs : List Char) (count : Int) :
    rightChars cs count = cs.rtake (min (max count 0) cs.length).toNat := by
  have hskip :
      (cs.length - max count 0).toNat = cs.length - (min (max count 0) cs.length).toNat := by omega
  rw [rightChars, window, hskip, List.rtake]
  exact List.take_of_length_le (by rw [List.length_drop]; omega)

/-- A string is its start and what is left of it. -/
theorem leftChars_append_rightChars {count : Int} (h : 0 ≤ count) (hle : count ≤ cs.length) :
    leftChars cs count ++ rightChars cs (cs.length - count) = cs := by
  have hback :
      (min (max (cs.length - count) 0) cs.length).toNat = cs.length - count.toNat := by omega
  have hskip : cs.length - (cs.length - count.toNat) = count.toNat := by omega
  rw [rightChars_eq_rtake, hback, List.rtake, hskip]
  exact List.take_append_drop count.toNat cs

theorem joined (h : Heap) (cs ds : List Char) :
    Value.binary h .plus (ofChars cs) (ofChars ds) = .ok (ofChars (cs ++ ds)) :=
  congrArg (Except.ok ∘ Value.text) String.ofList_append.symm

end Strings

namespace Builtin

/-- Wherever the built-in is called with arguments of these values, it gives the value, and changes
nothing once the arguments are evaluated. -/
def Gives (b : Builtin) (args : List Value) (v : Value) : Prop :=
  ∀ (self : Evaluator) (stack : CallStack) (nodes : List Node) (m m' : Machine),
    self.values stack nodes m = .value args m' → b.call self stack nodes m = .value v m'

/-- A built-in that looks neither at its arguments as they are written nor at files. -/
theorem gives_of_onValues? {b : Builtin} {args : List Value} {v : Value} {r : Run Value}
    (hnodes : ∀ self stack nodes, b.onNodes? self stack nodes = none) (hfiles : b.usesFiles = false)
    (hr : b.onValues? args = some r) (hv : ∀ m, r m = .value v m) : b.Gives args v := by
  intro self stack nodes m m' hvalues
  rw [call_of_values (hnodes self stack nodes) hvalues, apply_eq hfiles, onValues, hr]
  exact hv m'

variable (s : String) (n m : Int64)

theorem gives_mid :
    mid.Gives [.text s, .int n, .int m] (Strings.ofChars (Strings.midChars s.toList n m)) :=
  gives_of_onValues? (fun _ _ _ => rfl) rfl rfl fun _ => rfl

theorem gives_left :
    left.Gives [.text s, .int m] (Strings.ofChars (Strings.leftChars s.toList m.toInt)) :=
  gives_of_onValues? (fun _ _ _ => rfl) rfl rfl fun _ => rfl

theorem gives_right :
    right.Gives [.text s, .int m] (Strings.ofChars (Strings.rightChars s.toList m.toInt)) :=
  gives_of_onValues? (fun _ _ _ => rfl) rfl rfl fun _ => rfl

theorem gives_len : len.Gives [.text s] (.int (Int64.ofNat s.length)) :=
  gives_of_onValues? (fun _ _ _ => rfl) rfl rfl fun _ => rfl

end Builtin

/-- What the functions that cut strings give. None of them fails for integers, and no integer on
the way leaves 64 bits. -/
theorem substring_windows (s : String) :
    (∀ n m : Int64,
      Builtin.mid.Gives [.text s, .int n, .int m]
        (Strings.ofChars (Strings.between s.toList n.toInt (n.toInt + m.toInt))) ∧
      (1 ≤ n → Integer.sub? n 1 = some (n - 1))) ∧
    (∀ m : Int64, ∃ v, Builtin.left.Gives [.text s, .int m] v ∧
      Builtin.mid.Gives [.text s, .int 1, .int m] v) ∧
    (∀ m : Int64,
      Builtin.right.Gives [.text s, .int m]
        (Strings.ofChars (s.toList.rtake (min (max m.toInt 0) s.length).toNat)) ∧
      (Integer.Fits s.length → Integer.Fits (s.length - max m.toInt 0))) ∧
    ∀ (h : Heap) (length k : Int64), length.toInt = s.length → 0 ≤ k → k ≤ length →
      ∃ (rest : Int64) (front back : Value), Builtin.len.Gives [.text s] (.int length) ∧
        Value.binary h .minus (.int length) (.int k) = .ok (.int rest) ∧
        Builtin.left.Gives [.text s, .int k] front ∧ Builtin.right.Gives [.text s, .int rest] back ∧
        Value.binary h .plus front back = .ok (.text s) := by
  refine ⟨fun n m => ⟨?_, fun hn => ?_⟩, fun m => ?_, fun m =>
    ⟨?_, fun hs => ?_⟩, fun h length k hlength hk hle => ?_⟩
  · rw [← Strings.midChars_eq_between]
    exact Builtin.gives_mid s n m
  · rw [Integer.sub?, show (1 : Int64).toInt = 1 from rfl, ← Integer.toInt_sub_one hn,
      Integer.ofInt?_toInt]
  · refine ⟨_, Builtin.gives_left s m, ?_⟩
    rw [Strings.leftChars_eq_between]
    exact Strings.midChars_eq_between s.toList 1 m ▸ Builtin.gives_mid s 1 m
  · rw [← String.length_toList, ← Strings.rightChars_eq_rtake]
    exact Builtin.gives_right s m
  · have hm := m.toInt_lt
    unfold Integer.Fits at hs ⊢
    omega
  · have hk' : 0 ≤ k.toInt := Int64.le_iff_toInt_le.1 hk
    have hle' : k.toInt ≤ s.length := hlength ▸ Int64.le_iff_toInt_le.1 hle
    have hrest : Integer.Fits (length.toInt - k.toInt) := by
      have hfits := Integer.fits_toInt length
      unfold Integer.Fits at hfits ⊢
      omega
    have hlen : Int64.ofNat s.length = length := by
      rw [← Int64.ofInt_toInt length, hlength, Int64.ofInt_eq_ofNat]
    refine ⟨.ofInt (length.toInt - k.toInt), _, _, hlen ▸ Builtin.gives_len s, ?_,
      Builtin.gives_left s k, Builtin.gives_right s _, ?_⟩
    · exact congrArg Value.checked (Integer.ofInt?_of_fits hrest)
    · rw [← String.length_toList] at hle'
      rw [Strings.joined, hrest.toInt_ofInt, hlength, ← String.length_toList,
        Strings.leftChars_append_rightChars hk' hle', Strings.ofChars, String.ofList_toList]

/-- Windows into a string whose characters take one, two, three and four octets, from
before it and beyond it. -/
theorem substring_windows_wide :
    let s := "aé€😀"
    let greatest : Int64 := Int64.maxValue
    Builtin.mid.Gives [.text s, .int (-1), .int 4] (Strings.ofChars ['a', 'é']) ∧
      Builtin.mid.Gives [.text s, .int 3, .int greatest] (Strings.ofChars ['€', '😀']) ∧
      (1 ≤ greatest ∧ Integer.sub? greatest 1 = some (greatest - 1)) ∧
      (Integer.Fits s.length ∧ Integer.Fits (s.length - max greatest.toInt 0)) ∧
      ((4 : Int64).toInt = s.length ∧ (0 : Int64) ≤ 3 ∧ (3 : Int64) ≤ 4) ∧
      ∃ (rest : Int64) (front back : Value), Builtin.len.Gives [.text s] (.int 4) ∧
        Value.binary #[] .minus (.int 4) (.int 3) = .ok (.int rest) ∧
        Builtin.left.Gives [.text s, .int 3] front ∧ Builtin.right.Gives [.text s, .int rest] back ∧
        Value.binary #[] .plus front back = .ok (.text s) := by
  intro s greatest
  obtain ⟨hmid, -, hright, hsplit⟩ := substring_windows s
  have hbefore : Strings.between s.toList (-1 : Int64).toInt
      ((-1 : Int64).toInt + (4 : Int64).toInt) = ['a', 'é'] := by
    decide
  have hbeyond : Strings.between s.toList (3 : Int64).toInt ((3 : Int64).toInt + greatest.toInt) =
      ['€', '😀'] := by
    decide
  have hlength : (4 : Int64).toInt = s.length := by decide
  have hfits : Integer.Fits s.length := hlength ▸ Integer.fits_toInt 4
  refine ⟨hbefore ▸ (hmid (-1) 4).1, hbeyond ▸ (hmid 3 greatest).1,
    ⟨by decide, (hmid greatest 1).2 (by decide)⟩,
    ⟨hfits, (hright greatest).2 hfits⟩, ⟨hlength, by decide, by decide⟩,
    hsplit #[] 4 3 hlength (by decide) (by decide)⟩

end LineBasic
