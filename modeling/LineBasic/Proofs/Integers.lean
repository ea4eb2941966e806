import Mathlib.Data.Rat.Floor
import LineBasic.Evaluation
import LineBasic.Proofs.SourceLines

/-!
# Arithmetic of integers

The integers of the language are exact or fail. Sums, differences, products, negatives and
absolute values are computed without bounds and then have to fit. Division is made in steps that
all work on 64 bits: the quotient rounded towards zero, the remainder that goes with it, and a
correction where the signs differ.

* `Integer.Fits` : the integers of 64 bits.
* `Integer.quotient_lt_of_remainder` : where something remains, the quotient is far from the bounds,
  so that the correction fits.
* `Integer.floor_eq`, `Integer.floor_eq_of_tdiv` : the floor of a quotient, from a
  remainder and from the steps.
* `Integer.floorDiv?_eq_some`, `Integer.floorDiv?_eq_none` : what the steps of a division come to.
* `Value.Exact` : a result that is exact, or fails because the exact one does not fit.
* `integer_arithmetic_exact` : all operations on integers but powers are exact or fail.
* `remainder_sides_with_divisor` : the remainder has the sign of the divisor
  and goes with the quotient.
-/

namespace LineBasic
namespace Integer

variable {a b k q : Int64} {m n : Int}

/-- The integers of 64 bits. -/
def Fits (n : Int) : Prop := -2 ^ 63 ≤ n ∧ n < 2 ^ 63

theorem fits_toInt (a : Int64) : Fits a.toInt := ⟨a.le_toInt, a.toInt_lt⟩

theorem Fits.toInt_ofInt (h : Fits n) : (Int64.ofInt n).toInt = n := Int64.toInt_ofInt_of_le h.1 h.2

theorem ofInt?_of_fits (h : Fits n) : ofInt? n = some (Int64.ofInt n) :=
  if_pos ⟨h.1, Int.le_of_lt_add_one h.2⟩

theorem ofInt?_eq_none_iff : ofInt? n = none ↔ ¬Fits n := by
  constructor
  · intro h hn
    rw [ofInt?_of_fits hn] at h
    cases h
  · intro h
    exact if_neg fun hn => h ⟨hn.1, Int.lt_add_one_of_le hn.2⟩

theorem toInt_ne_zero_iff : b.toInt ≠ 0 ↔ b ≠ 0 := not_congr (Int64.toInt_inj (y := 0))

theorem opposed_iff : opposed a b = true ↔ ¬(a.toInt < 0 ↔ b.toInt < 0) := by
  simp [opposed, Int64.lt_iff_toInt_lt]

/-! ### Rounding towards zero -/

theorem natAbs_tmod_lt (h : n ≠ 0) (m : Int) : (m.tmod n).natAbs < n.natAbs := by
  rw [Int.natAbs_tmod]
  exact Nat.mod_lt _ (Int.natAbs_pos.2 h)

/-- A remainder has the sign of the dividend. -/
theorem tmod_side (m n : Int) : (0 ≤ m → 0 ≤ m.tmod n) ∧ (m ≤ 0 → m.tmod n ≤ 0) := by
  refine ⟨Int.tmod_nonneg n, fun h => ?_⟩
  have hneg := Int.tmod_nonneg n (Int.neg_nonneg_of_nonpos h)
  rw [Int.neg_tmod] at hneg
  omega

/-- Where something remains, the divisor has at least size two, so that the quotient has at most
half the size of the dividend. -/
theorem quotient_lt_of_remainder (hn : n ≠ 0) (h : m.tmod n ≠ 0) :
    2 * (m.tdiv n).natAbs ≤ m.natAbs := by
  have hsmall := natAbs_tmod_lt hn m
  have htwo : 2 ≤ n.natAbs := by omega
  rw [Int.natAbs_tdiv]
  exact (Nat.mul_le_mul_right _ htwo).trans (Nat.mul_div_le _ _)

theorem truncDiv?_of_ne_zero (hb : b ≠ 0) : truncDiv? a b = ofInt? (a.toInt.tdiv b.toInt) :=
  if_neg hb

theorem toInt_of_truncDiv? (h : truncDiv? a b = some q) :
    b ≠ 0 ∧ q.toInt = a.toInt.tdiv b.toInt := by
  unfold truncDiv? at h
  split at h
  · cases h
  · next hb => exact ⟨hb, ofInt?_eq_some h⟩

/-- The correction of a quotient fits. -/
theorem sub?_of_remainder (h : truncDiv? a b = some q) (hrest : a % b ≠ 0) :
    ∃ q', sub? q 1 = some q' ∧ q'.toInt = q.toInt - 1 := by
  obtain ⟨hb, hq⟩ := toInt_of_truncDiv? h
  have hrest' : a.toInt.tmod b.toInt ≠ 0 := by
    rw [← Int64.toInt_mod]
    exact toInt_ne_zero_iff.2 hrest
  have hhalf := quotient_lt_of_remainder (toInt_ne_zero_iff.2 hb) hrest'
  have hfits := fits_toInt a
  have hcorrected : Fits (q.toInt - (1 : Int64).toInt) := by
    rw [hq]
    unfold Fits at *
    simp only [Int64.toInt_one]
    omega
  exact ⟨_, ofInt?_of_fits hcorrected, hcorrected.toInt_ofInt⟩

/-- Only the quotient of the least integer by `-1` does not fit. -/
theorem truncDiv?_eq_none (hb : b ≠ 0) : truncDiv? a b = none ↔ a = Int64.minValue ∧ b = -1 := by
  rw [truncDiv?_of_ne_zero hb]
  constructor
  · intro h
    have hwide := ofInt?_eq_none_iff.1 h
    have ha := fits_toInt a
    have hle : (a.toInt.tdiv b.toInt).natAbs ≤ a.toInt.natAbs := Int.natAbs_tdiv_le_natAbs _ _
    unfold Fits at ha hwide
    -- the size of the quotient is that of the least integer, and so is that of the dividend
    have hmin : a.toInt = -2 ^ 63 := by omega
    have hquot : a.toInt.tdiv b.toInt = 2 ^ 63 := by omega
    have hprod := Int.mul_tdiv_add_tmod a.toInt b.toInt
    have hsmall := natAbs_tmod_lt (toInt_ne_zero_iff.2 hb) a.toInt
    have hside := (tmod_side a.toInt b.toInt).2
    rw [hquot] at hprod
    have hone : b.toInt = (-1 : Int64).toInt := by
      rw [show (-1 : Int64).toInt = -1 from rfl]
      omega
    exact ⟨Int64.toInt_inj.1 hmin, Int64.toInt_inj.1 hone⟩
  · rintro ⟨rfl, rfl⟩
    rfl

/-! ### Rounding down -/

/-- The floor of a quotient is what leaves a remainder on the side of the divisor. -/
theorem floor_eq {m n q r : Int} (h : m = n * q + r) (side : 0 ≤ r ∧ r < n ∨ n < r ∧ r ≤ 0) :
    ⌊(m : ℚ) / n⌋ = q := by
  have hn : (n : ℚ) ≠ 0 := by
    rcases side with ⟨h₀, h₁⟩ | ⟨h₀, h₁⟩
    · exact_mod_cast (h₀.trans_lt h₁).ne'
    · exact_mod_cast (h₀.trans_le h₁).ne
  have hsplit : (m : ℚ) / n = q + r / n := by
    rw [h]
    push_cast
    field_simp
  have hunit : ⌊(r : ℚ) / n⌋ = 0 := by
    rw [Int.floor_eq_zero_iff]
    rcases side with ⟨h₀, h₁⟩ | ⟨h₀, h₁⟩
    · have hpos : (0 : ℚ) < n := by exact_mod_cast h₀.trans_lt h₁
      exact ⟨div_nonneg (by exact_mod_cast h₀) hpos.le, (div_lt_one hpos).2 (by exact_mod_cast h₁)⟩
    · have hneg : (n : ℚ) < 0 := by exact_mod_cast h₀.trans_le h₁
      exact ⟨div_nonneg_of_nonpos (by exact_mod_cast h₁) hneg.le,
        (div_lt_one_of_neg hneg).2 (by exact_mod_cast h₀)⟩
  rw [hsplit, Int.floor_intCast_add, hunit, add_zero]

/-- The floor of a quotient is the quotient rounded towards zero, or one less. -/
theorem floor_eq_of_tdiv (hn : n ≠ 0) :
    ⌊(m : ℚ) / n⌋ = if m.tmod n ≠ 0 ∧ ¬(m < 0 ↔ n < 0) then m.tdiv n - 1 else m.tdiv n := by
  have hprod := Int.mul_tdiv_add_tmod m n
  have hsmall := natAbs_tmod_lt hn m
  have hside := tmod_side m n
  split
  · next h =>
    refine floor_eq (r := m.tmod n + n) ?_ (by omega)
    rw [mul_sub, mul_one]
    omega
  · next h => exact floor_eq hprod.symm (by omega)

/-- The remainder of a quotient rounded down, from the one of a quotient rounded towards zero. -/
theorem floor_remainder (hn : n ≠ 0) :
    m - n * ⌊(m : ℚ) / n⌋ =
      if m.tmod n ≠ 0 ∧ ¬(m.tmod n < 0 ↔ n < 0) then m.tmod n + n else m.tmod n := by
  have hprod := Int.mul_tdiv_add_tmod m n
  have hside := tmod_side m n
  -- where something remains, it has the sign of the dividend
  have hsign : m.tmod n ≠ 0 → (m.tmod n < 0 ↔ m < 0) := by omega
  rw [floor_eq_of_tdiv hn]
  by_cases hrest : m.tmod n = 0
  · simp only [hrest, ne_eq, not_true_eq_false, false_and, if_false]
    omega
  · simp only [ne_eq, hrest, not_false_eq_true, true_and, hsign hrest]
    split
    · rw [mul_sub, mul_one]
      omega
    · omega

/-- The remainder lies between zero and the divisor. -/
theorem floor_remainder_side (hn : n ≠ 0) (m : Int) :
    0 ≤ m - n * ⌊(m : ℚ) / n⌋ ∧ m - n * ⌊(m : ℚ) / n⌋ < n ∨
      n < m - n * ⌊(m : ℚ) / n⌋ ∧ m - n * ⌊(m : ℚ) / n⌋ ≤ 0 := by
  have hsmall := natAbs_tmod_lt hn m
  rw [floor_remainder hn]
  split <;> omega

theorem floorDiv?_eq_some (h : floorDiv? a b = some k) : k.toInt = ⌊(a.toInt : ℚ) / b.toInt⌋ := by
  obtain ⟨q, hq, hk⟩ := Option.bind_eq_some_iff.1 h
  obtain ⟨hb, hquot⟩ := toInt_of_truncDiv? hq
  have hrest : a % b ≠ 0 ↔ a.toInt.tmod b.toInt ≠ 0 := by
    rw [← Int64.toInt_mod, toInt_ne_zero_iff]
  rw [floor_eq_of_tdiv (toInt_ne_zero_iff.2 hb)]
  simp only [opposed_iff, hrest] at hk
  split at hk
  · next hcorrect =>
    rw [if_pos hcorrect, ofInt?_eq_some hk, hquot]
    rfl
  · next hplain =>
    cases hk
    rw [if_neg hplain, hquot]

theorem floorDiv?_eq_none (hb : b ≠ 0) : floorDiv? a b = none ↔ a = Int64.minValue ∧ b = -1 := by
  rw [← truncDiv?_eq_none hb]
  unfold floorDiv?
  constructor
  · intro h
    by_contra hsome
    obtain ⟨q, hq⟩ := Option.ne_none_iff_exists'.1 hsome
    rw [hq, Option.bind_some] at h
    split at h
    · next hcorrect =>
      obtain ⟨q', hq', -⟩ := sub?_of_remainder hq hcorrect.1
      rw [hq'] at h
      cases h
    · cases h
  · intro h
    rw [h]
    rfl

/-- Adding the divisor to a remainder of the other sign does not leave the 64 bits. -/
theorem toInt_add_of_opposed (h : opposed a b = true) : (a + b).toInt = a.toInt + b.toInt := by
  have ha := fits_toInt a
  have hb := fits_toInt b
  rw [opposed_iff] at h
  unfold Fits at ha hb
  rw [Int64.toInt_add]
  exact Int.bmod_eq_of_le (by omega) (by omega)

theorem floorMod?_eq_some (h : floorMod? a b = some k) :
    k.toInt = a.toInt - b.toInt * ⌊(a.toInt : ℚ) / b.toInt⌋ := by
  obtain ⟨r, hr, hk⟩ := Option.map_eq_some_iff.1 h
  obtain ⟨q, hq, rfl⟩ := Option.map_eq_some_iff.1 hr
  rw [floor_remainder (toInt_ne_zero_iff.2 (toInt_of_truncDiv? hq).1), ← Int64.toInt_mod]
  rw [← hk]
  simp only [opposed_iff, toInt_ne_zero_iff]
  split
  · next hcorrect => exact toInt_add_of_opposed (opposed_iff.2 hcorrect.2)
  · rfl

theorem floorMod?_eq_none : floorMod? a b = none ↔ truncDiv? a b = none := by
  simp [floorMod?, truncMod?]

end Integer

/-! ### Values -/

namespace Value

variable {a b : Int64} {n : Int} {r : Except Error Value}

/-- The result of an exact operation: the integer `n` if it fits, and otherwise an overflow. -/
structure Exact (n : Int) (r : Except Error Value) : Prop where
  given : Integer.Fits n → ∃ k : Int64, k.toInt = n ∧ r = .ok (.int k)
  fails : r = .error (.run .integerOverflow) ↔ ¬Integer.Fits n

theorem exact_checked {o : Option Int64} (some : ∀ k, o = some k → k.toInt = n)
    (none : o = none → ¬Integer.Fits n) : Exact n (checked o) := by
  cases o with
  | none => exact ⟨fun h => absurd h (none rfl), fun _ => none rfl, fun _ => rfl⟩
  | some k =>
    have hk := some k rfl
    exact ⟨fun _ => ⟨k, hk, rfl⟩, nofun, fun h => absurd (hk ▸ Integer.fits_toInt k) h⟩

theorem exact_ofInt? (n : Int) : Exact n (checked (Integer.ofInt? n)) :=
  exact_checked (fun _ => Integer.ofInt?_eq_some) Integer.ofInt?_eq_none_iff.1

theorem divided_int (op : Operator) (onInt : Int64 → Int64 → Option Int64)
    (onFloat : Float → Float → Float) (hb : b ≠ 0) :
    divided op onInt onFloat (.int a) (.int b) = checked (onInt a b) :=
  if_neg (by simpa [isZero] using hb)

theorem binary_floorDivide (hb : b ≠ 0) (h : Heap) :
    binary h .floorDivide (.int a) (.int b) = checked (Integer.floorDiv? a b) :=
      divided_int _ _ _ hb

theorem binary_modulo (hb : b ≠ 0) (h : Heap) :
    binary h .modulo (.int a) (.int b) = checked (Integer.floorMod? a b) := divided_int _ _ _ hb

/-- The quotient that does not fit is `2 ^ 63`. -/
theorem exact_floorDiv (hb : b ≠ 0) :
    Exact ⌊(a.toInt : ℚ) / b.toInt⌋ (checked (Integer.floorDiv? a b)) := by
  refine exact_checked (fun _ => Integer.floorDiv?_eq_some) fun h => ?_
  obtain ⟨rfl, rfl⟩ := (Integer.floorDiv?_eq_none hb).1 h
  have hfloor : ⌊((Int64.minValue.toInt : Int) : ℚ) / ((-1 : Int64).toInt : Int)⌋ = 2 ^ 63 :=
    Integer.floor_eq_of_tdiv (by decide)
  rw [hfloor]
  exact fun hfits => absurd hfits.2 (by decide)

end Value

/-- A sum, difference, product, negative, absolute value or quotient rounded down of any integers is
the exact one if it fits in 64 bits, and fails with an overflow just if it does not; a quotient by
zero fails as such. The steps of a division are exact: the remainder that decides on the correction
is the one of the unbounded integers, and the corrected quotient fits. -/
theorem integer_arithmetic_exact (h : Heap) (a b : Int64) :
    Value.Exact (a.toInt + b.toInt) (Value.binary h .plus (.int a) (.int b)) ∧
    Value.Exact (a.toInt - b.toInt) (Value.binary h .minus (.int a) (.int b)) ∧
    Value.Exact (a.toInt * b.toInt) (Value.binary h .times (.int a) (.int b)) ∧
    Value.Exact (-a.toInt) (Value.negated (.int a)) ∧
    Value.Exact |a.toInt| (Numbers.abs [.int a]) ∧
    (b ≠ 0 →
      Value.Exact ⌊(a.toInt : ℚ) / b.toInt⌋ (Value.binary h .floorDivide (.int a) (.int b))) ∧
    (b = 0 → Value.binary h .floorDivide (.int a) (.int b) = .error (.run .divisionByZero)) ∧
    (∀ q, Integer.truncDiv? a b = some q →
      q.toInt = a.toInt.tdiv b.toInt ∧ (a % b).toInt = a.toInt.tmod b.toInt ∧
        (a % b ≠ 0 → ∃ q', Integer.sub? q 1 = some q' ∧ q'.toInt = q.toInt - 1)) ∧
    (Error.run .integerOverflow).message = "integer overflow" ∧
    (Error.run .divisionByZero).message = "division by zero" := by
  refine ⟨Value.exact_ofInt? _, Value.exact_ofInt? _, Value.exact_ofInt? _, Value.exact_ofInt? _,
    ?_, ?_, ?_, ?_, rfl, rfl⟩
  · rw [← Int.natCast_natAbs]
    exact Value.exact_ofInt? _
  · intro hb
    rw [Value.binary_floorDivide hb]
    exact Value.exact_floorDiv hb
  · rintro rfl
    rfl
  · intro q hq
    exact ⟨(Integer.toInt_of_truncDiv? hq).2, Int64.toInt_mod a b, Integer.sub?_of_remainder hq⟩

/-- The least integer by `-1`, where the quotient does not fit, and by 2, where it is corrected. -/
theorem integer_arithmetic_exact_extremes :
    Value.binary #[] .floorDivide (.int Int64.minValue) (.int (-1)) =
      .error (.run .integerOverflow) ∧
    (∃ k : Int64, k.toInt = -4 ∧
      Value.binary #[] .floorDivide (.int (-7)) (.int 2) = .ok (.int k)) ∧
    Value.binary #[] .floorDivide (.int (-7)) (.int 0) = .error (.run .divisionByZero) ∧
    ∃ q', Integer.sub? (-3) 1 = some q' ∧ q'.toInt = -4 := by
  have hleast : ⌊((Int64.minValue.toInt : Int) : ℚ) / ((-1 : Int64).toInt : Int)⌋ = 2 ^ 63 :=
    Integer.floor_eq_of_tdiv (by decide)
  have hseven : ⌊(((-7 : Int64).toInt : Int) : ℚ) / ((2 : Int64).toInt : Int)⌋ = -4 :=
    Integer.floor_eq_of_tdiv (by decide)
  obtain ⟨-, -, -, -, -, least, -, -, -, -⟩ := integer_arithmetic_exact #[] Int64.minValue (-1)
  obtain ⟨-, -, -, -, -, seven, -, steps, -, -⟩ := integer_arithmetic_exact #[] (-7) 2
  obtain ⟨-, -, -, -, -, -, zero, -, -, -⟩ := integer_arithmetic_exact #[] (-7) 0
  have least := least (by decide)
  have seven := seven (by decide)
  rw [hleast] at least
  rw [hseven] at seven
  exact ⟨least.fails.2 fun h =>
    absurd h.2 (by decide), seven.given ⟨by decide, by decide⟩, zero rfl,
    (steps (-3) rfl).2.2 (by decide)⟩

/-- For every divisor but zero, the remainder of an integer goes with the quotient rounded
down: it is zero or has the sign of the divisor, is smaller than it, and goes with the result
of the integer division where there is one. Only the remainder of the least integer by `-1`
fails, with an overflow. -/
theorem remainder_sides_with_divisor (h : Heap) (a b : Int64) (nonzero : b ≠ 0) :
    (¬(a = Int64.minValue ∧ b = -1) →
      ∃ r : Int64, Value.binary h .modulo (.int a) (.int b) = .ok (.int r) ∧
        a.toInt = b.toInt * ⌊(a.toInt : ℚ) / b.toInt⌋ + r.toInt ∧
        (r.toInt = 0 ∨ r.toInt.sign = b.toInt.sign) ∧ |r.toInt| < |b.toInt| ∧
        ∀ q : Int64, Value.binary h .floorDivide (.int a) (.int b) = .ok (.int q) →
          a.toInt = b.toInt * q.toInt + r.toInt) ∧
    (a = Int64.minValue ∧ b = -1 →
      Value.binary h .modulo (.int a) (.int b) = .error (.run .integerOverflow)) := by
  rw [Value.binary_modulo nonzero, Value.binary_floorDivide nonzero]
  constructor
  · intro hother
    have hsome : Integer.floorMod? a b ≠ none := by
      rwa [ne_eq, Integer.floorMod?_eq_none, Integer.truncDiv?_eq_none nonzero]
    obtain ⟨r, hr⟩ := Option.ne_none_iff_exists'.1 hsome
    have hexact := Integer.floorMod?_eq_some hr
    have hside := Integer.floor_remainder_side (Integer.toInt_ne_zero_iff.2 nonzero) a.toInt
    rw [← hexact] at hside
    have hgoes : a.toInt = b.toInt * ⌊(a.toInt : ℚ) / b.toInt⌋ + r.toInt := by omega
    refine ⟨r, by rw [hr]; rfl, hgoes, ?_, ?_, fun q hq => ?_⟩
    · rcases hside with ⟨h₀, h₁⟩ | ⟨h₀, h₁⟩
      · rcases h₀.eq_or_lt with hzero | hpos
        · exact .inl hzero.symm
        · exact .inr (by rw [Int.sign_eq_one_of_pos hpos, Int.sign_eq_one_of_pos (hpos.trans h₁)])
      · rcases h₁.eq_or_lt with hzero | hneg
        · exact .inl hzero
        · exact .inr
            (by rw [Int.sign_eq_neg_one_of_neg hneg, Int.sign_eq_neg_one_of_neg (h₀.trans hneg)])
    · rw [← Int.natCast_natAbs, ← Int.natCast_natAbs]
      omega
    · cases hfloor : Integer.floorDiv? a b with
      | none => rw [hfloor] at hq; cases hq
      | some k =>
        rw [hfloor] at hq
        cases hq
        rw [Integer.floorDiv?_eq_some hfloor]
        exact hgoes
  · intro hleast
    rw [Integer.floorMod?_eq_none.2 ((Integer.truncDiv?_eq_none nonzero).2 hleast)]
    rfl

/-- Signs that differ, and the divisor `-1` that no remainder is due to. -/
theorem remainder_sides_with_divisor_signs :
    (-7 : Int64).toInt = (3 : Int64).toInt * (-3 : Int64).toInt + (2 : Int64).toInt ∧
    (∃ r : Int64, Value.binary #[] .modulo (.int (-7)) (.int 3) = .ok (.int r) ∧ |r.toInt| < 3 ∧
      (r.toInt = 0 ∨ r.toInt.sign = 1)) ∧
    (∃ r : Int64, Value.binary #[] .modulo (.int 7) (.int (-3)) = .ok (.int r) ∧ |r.toInt| < 3 ∧
      (r.toInt = 0 ∨ r.toInt.sign = -1)) ∧
    Value.binary #[] .modulo (.int Int64.minValue) (.int (-1)) =
      .error (.run .integerOverflow) := by
  obtain ⟨r, hr, -, hsign, hsmall, -⟩ :=
    (remainder_sides_with_divisor #[] (-7) 3 (by decide)).1 (by decide)
  obtain ⟨s, hs, -, hsign', hsmall', -⟩ :=
    (remainder_sides_with_divisor #[] 7 (-3) (by decide)).1 (by decide)
  exact ⟨by decide, ⟨r, hr, hsmall, hsign⟩, ⟨s, hs, hsmall', hsign'⟩,
    (remainder_sides_with_divisor #[] Int64.minValue (-1) (by decide)).2 (by decide)⟩

/-- The error that a run fails with, and the machine that it leaves. -/
def Outcome.failure? {α : Type} : Outcome α → Option (Error × Machine)
  | .value _ _ => none
  | .failure e m => some (e, m)
  | .exhausted => none

theorem Outcome.failure?_eq_some {α : Type} {o : Outcome α} {e : Error} {m : Machine} :
    o.failure? = some (e, m) ↔ o = .failure e m := by
  cases o <;> simp [failure?]

/-- A program that fails before it has printed anything, once it has been run. -/
theorem exists_failure_of_run {source : String} {error : Error} {fuel : Nat}
    (hrun : (Reader.program? [] [source]).any (fun tree =>
      (eval fuel (.bottom 256) tree (.fresh .still .empty (.ofOctets []))).failure?.any fun r =>
        r.1 = error ∧ r.2.output = "") = true) :
    ∃ (tree : Node) (m : Machine), Reader.program? [] [source] = some tree ∧
      eval fuel (.bottom 256) tree (.fresh .still .empty (.ofOctets [])) = .failure error m ∧
      m.output = "" := by
  obtain ⟨tree, read, hends⟩ := (Option.any_eq_true ..).1 hrun
  obtain ⟨⟨e, m⟩, hfails, hsilent⟩ := (Option.any_eq_true ..).1 hends
  obtain ⟨rfl, houtput⟩ := of_decide_eq_true hsilent
  exact ⟨tree, m, read, Outcome.failure?_eq_some.1 hfails, houtput⟩

/-- The remainder of the least integer by `-1` is zero, which fits. It fails all the same: the
quotient that it is computed with does not fit. A program that asks for it ends with the
overflow and prints nothing. -/
theorem least_remainder_refused :
    let source := "A = -9223372036854775807 - 1\nPRINT A MOD -1"
    Int64.minValue.toInt - (-1 : Int64).toInt * ⌊(Int64.minValue.toInt : ℚ) /
      ((-1 : Int64).toInt : Int)⌋ = 0 ∧
    (¬∃ r, Value.binary #[] .modulo (.int Int64.minValue) (.int (-1)) = .ok r) ∧
    ∃ (tree : Node) (m : Machine), Reader.program? [] [source] = some tree ∧
      eval 20 (.bottom 256) tree (.fresh .still .empty (.ofOctets [])) =
        .failure (.run .integerOverflow) m ∧
      m.output = "" := by
  intro source
  refine ⟨?_, ?_, ?_⟩
  · rw [Integer.floor_remainder (by decide)]
    decide
  · rintro ⟨r, hr⟩
    cases hr
  · exact exists_failure_of_run (by decide +kernel)

end LineBasic
