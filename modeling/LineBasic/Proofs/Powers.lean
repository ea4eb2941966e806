import LineBasic.Proofs.Integers

/-!
# Powers of integers

A power is computed by repeated squaring, and each product on the way has to fit in 64 bits. The
base is squared only while a higher bit of the exponent is still to come, so that every product
is a factor of the result. Hence nothing is refused that fits, with one exception: the exponent
itself has to fit in 32 bits. That makes no difference to bases of size two or more, whose
powers are too large then.

* `Integer.Fits.of_mul`, `Integer.Fits.square` : what fits together with a factor fits without it.
* `Integer.mulPow?_eq` : repeated squaring is exact.
* `Integer.not_fits_of_long` : large powers of large bases.
* `power_exact_unless_long` : powers are exact or fail, but for long exponents
  of the bases 0, 1 and -1.
-/

namespace LineBasic
namespace Integer

variable {a acc : Int64} {k m x : Int} {n : Nat}

/-! ### Factors of what fits -/

theorem Fits.of_mul (hm : 1 ≤ m) (h : Fits (x * m)) : Fits x := by
  obtain ⟨hlow, hhigh⟩ := h
  constructor
  · by_contra hx
    have hle : x * m ≤ x * 1 := Int.mul_le_mul_of_nonpos_left (by omega) hm
    omega
  · by_contra hx
    have hle : x * 1 ≤ x * m := Int.mul_le_mul_of_nonneg_left hm (by omega)
    omega

/-- A square is not `2 ^ 63`, as it does not leave the remainder 2 by 3. -/
theorem square_ne (x : Int) : x * x ≠ 2 ^ 63 := by
  intro h
  have hrem : x * x % 3 = 2 := by rw [h]; decide
  rw [Int.mul_emod] at hrem
  have hcases : x % 3 = 0 ∨ x % 3 = 1 ∨ x % 3 = 2 := by omega
  rcases hcases with h | h | h <;> simp [h] at hrem

theorem one_le_pow_square (hx : x ≠ 0) (n : Nat) : 1 ≤ (x * x) ^ n :=
  one_le_pow₀ (Int.add_one_le_of_lt (mul_self_pos.2 hx))

/-- The square is a factor of its powers. -/
theorem Fits.square (hk : k ≠ 0) (hn : n ≠ 0) (h : Fits (k * (x * x) ^ n)) : Fits (x * x) := by
  by_cases hx : x = 0
  · subst hx
    exact ⟨by decide, by decide⟩
  · have hone : 1 ≤ x * x := by simpa using one_le_pow_square hx 1
    have hpow := one_le_pow_square hx n
    have hle : x * x ≤ |k * (x * x) ^ n| := by
      rw [abs_mul, abs_of_pos (by omega : 0 < (x * x) ^ n)]
      calc x * x ≤ 1 * (x * x) ^ n := by rw [one_mul]; exact le_self_pow₀ hone hn
        _ ≤ |k| * (x * x) ^ n := Int.mul_le_mul_of_nonneg_right (Int.one_le_abs hk) (by omega)
    have hbound : |k * (x * x) ^ n| ≤ 2 ^ 63 := abs_le.2 ⟨h.1, h.2.le⟩
    have hne := square_ne x
    exact ⟨by omega, by omega⟩

/-! ### Repeated squaring -/

/-- What has been multiplied when the lowest bit of the exponent is used up: the base is a
factor just if it is one. -/
def withLowest (k x : Int) (n : Nat) : Int := if n % 2 = 1 then k * x else k

theorem mul_pow_eq (k x : Int) (n : Nat) : k * x ^ n = withLowest k x n * (x * x) ^ (n / 2) := by
  have hsplit : x ^ n = x ^ (n % 2) * (x * x) ^ (n / 2) := by
    rw [← sq, ← pow_mul, ← pow_add, Nat.mod_add_div]
  rw [hsplit, withLowest]
  split
  · next h => rw [h, pow_one, mul_assoc]
  · next h => rw [show n % 2 = 0 by omega, pow_zero, one_mul]

theorem withLowest_ne_zero (hk : k ≠ 0) (hx : x ≠ 0) (n : Nat) : withLowest k x n ≠ 0 := by
  unfold withLowest
  split
  · exact mul_ne_zero hk hx
  · exact hk

theorem withLowest_checked (acc a : Int64) (n : Nat) :
    (if n % 2 = 1 then mul? acc a else some acc) = ofInt? (withLowest acc.toInt a.toInt n) := by
  unfold withLowest
  split
  · rfl
  · exact (ofInt?_toInt acc).symm

/-- The first product fits if the result does. -/
theorem fits_withLowest {m : Nat}
    (h : Fits (withLowest acc.toInt a.toInt n * (a.toInt * a.toInt) ^ m)) :
    Fits (withLowest acc.toInt a.toInt n) := by
  by_cases ha : a.toInt = 0
  · rw [ha, withLowest, mul_zero]
    split
    · exact fits_toInt 0
    · exact fits_toInt acc
  · exact h.of_mul (one_le_pow_square ha m)

/-- So does the square of the base, if it is used. -/
theorem fits_square {m : Nat} (nonzero : a ≠ 0 → acc ≠ 0) (hm : m ≠ 0)
    (h : Fits (withLowest acc.toInt a.toInt n * (a.toInt * a.toInt) ^ m)) :
    Fits (a.toInt * a.toInt) := by
  by_cases ha : a = 0
  · subst ha
    exact fits_toInt 0
  · have hk := withLowest_ne_zero (toInt_ne_zero_iff.2 (nonzero ha)) (toInt_ne_zero_iff.2 ha) n
    exact h.square hk hm

/-- Repeated squaring is exact: it stops early only where the result does not fit. -/
theorem mulPow?_eq (nonzero : a ≠ 0 → acc ≠ 0) (n : Nat) :
    mulPow? acc a n = ofInt? (acc.toInt * a.toInt ^ n) := by
  induction n using Nat.strong_induction_on generalizing acc a with
  | _ n ih =>
    rw [mulPow?, mul_pow_eq, withLowest_checked]
    by_cases hfirst : Fits (withLowest acc.toInt a.toInt n)
    · rw [ofInt?_of_fits hfirst, Option.bind_some]
      split
      · next hlast => rw [show n / 2 = 0 by omega, pow_zero, mul_one, ofInt?_of_fits hfirst]
      · next hmore =>
        by_cases hsquare : Fits (a.toInt * a.toInt)
        · -- the invariant: what has been multiplied is zero only if the base is
          have hnext : Int64.ofInt (a.toInt * a.toInt) ≠ 0 →
              Int64.ofInt (withLowest acc.toInt a.toInt n) ≠ 0 := by
            intro hne
            rw [← toInt_ne_zero_iff, hsquare.toInt_ofInt] at hne
            have ha : a.toInt ≠ 0 := left_ne_zero_of_mul hne
            rw [← toInt_ne_zero_iff, hfirst.toInt_ofInt]
            exact withLowest_ne_zero (toInt_ne_zero_iff.2 (nonzero (toInt_ne_zero_iff.1 ha))) ha n
          rw [mul?, ofInt?_of_fits hsquare, Option.bind_some, ih (n / 2) (by omega) hnext,
            hfirst.toInt_ofInt, hsquare.toInt_ofInt]
        · rw [mul?, ofInt?_eq_none_iff.2 hsquare, Option.bind_none, eq_comm, ofInt?_eq_none_iff]
          exact fun h => hsquare (fits_square nonzero (by omega) h)
    · rw [ofInt?_eq_none_iff.2 hfirst, Option.bind_none, eq_comm, ofInt?_eq_none_iff]
      exact fun h => hfirst (fits_withLowest h)

/-! ### Long exponents -/

theorem pow?_of_lt (a : Int64) (h : n < UInt32.size) : pow? a n = ofInt? (a.toInt ^ n) := by
  rw [pow?, if_neg (Nat.not_le.2 h), mulPow?_eq (fun _ => by decide)]
  simp

theorem pow?_of_le (a : Int64) (h : UInt32.size ≤ n) : pow? a n = none := if_pos h

/-- Large powers of bases of size two or more do not fit. -/
theorem not_fits_of_long (hx : 2 ≤ |x|) (hn : 64 ≤ n) : ¬Fits (x ^ n) := by
  rintro ⟨hlow, hhigh⟩
  have hle : |x ^ n| ≤ 2 ^ 63 := abs_le.2 ⟨hlow, hhigh.le⟩
  have hlarge : (2 : Int) ^ 64 ≤ |x ^ n| := by
    rw [abs_pow]
    calc (2 : Int) ^ 64 ≤ 2 ^ n := pow_le_pow_right₀ (by decide) hn
      _ ≤ |x| ^ n := pow_le_pow_left₀ (by decide) hx n
  omega

/-- The powers of 0, 1 and -1 are these numbers themselves. -/
theorem fits_pow_of_small (hx : |x| ≤ 1) (n : Nat) : Fits (x ^ n) := by
  have hle : |x ^ n| ≤ 1 := by
    rw [abs_pow]
    exact pow_le_one₀ (abs_nonneg x) hx
  obtain ⟨hlow, hhigh⟩ := abs_le.1 hle
  exact ⟨by omega, by omega⟩

end Integer

open Integer in
/-- A power of integers, with an exponent of at least zero, is the exact one if it fits in 64 bits,
and fails with an overflow just if it does not. The only powers that fit and fail are those of 0, 1
and -1 with an exponent that does not fit in 32 bits. -/
theorem power_exact_unless_long (h : Heap) (a n : Int64) (nonneg : 0 ≤ n) :
    (¬(|a.toInt| ≤ 1 ∧ 2 ^ 32 ≤ n.toInt) →
      Value.Exact (a.toInt ^ n.toInt.toNat) (Value.binary h .power (.int a) (.int n))) ∧
    (|a.toInt| ≤ 1 ∧ 2 ^ 32 ≤ n.toInt → Fits (a.toInt ^ n.toInt.toNat) ∧
      Value.binary h .power (.int a) (.int n) = .error (.run .integerOverflow)) ∧
    (Error.run .integerOverflow).message = "integer overflow" := by
  have hbinary : Value.binary h .power (.int a) (.int n) = Value.checked (pow? a n.toInt.toNat) :=
    if_pos nonneg
  have hsize : UInt32.size = 2 ^ 32 := rfl
  have hexponent : 0 ≤ n.toInt := Int64.le_iff_toInt_le.1 nonneg
  rw [hbinary]
  refine ⟨fun hother => ?_, fun ⟨hsmall, hlong⟩ => ⟨fits_pow_of_small hsmall _, ?_⟩, rfl⟩
  · by_cases hlong : UInt32.size ≤ n.toInt.toNat
    · have hlarge : 2 ≤ |a.toInt| := by omega
      rw [pow?_of_le a hlong]
      exact Value.exact_checked nofun fun _ => not_fits_of_long hlarge (by omega)
    · rw [pow?_of_lt a (by omega)]
      exact Value.exact_ofInt? _
  · rw [pow?_of_le a (by omega)]
    rfl

/-- The least integer as a power, the next power, and one with the base -1. -/
theorem power_exact_unless_long_extremes :
    Value.binary #[] .power (.int (-2)) (.int 63) = .ok (.int Int64.minValue) ∧
    Value.binary #[] .power (.int (-2)) (.int 65) = .error (.run .integerOverflow) ∧
    Value.binary #[] .power (.int (-1)) (.int 4294967296) = .error (.run .integerOverflow) := by
  obtain ⟨least, -, -⟩ := power_exact_unless_long #[] (-2) 63 (by decide)
  obtain ⟨next, -, -⟩ := power_exact_unless_long #[] (-2) 65 (by decide)
  obtain ⟨-, long, -⟩ := power_exact_unless_long #[] (-1) 4294967296 (by decide)
  have hexact := least (by decide)
  have hvalue : (-2 : Int64).toInt ^ (63 : Int64).toInt.toNat = Int64.minValue.toInt := by decide
  rw [hvalue] at hexact
  obtain ⟨k, hk, hpower⟩ := hexact.given (Integer.fits_toInt _)
  rw [hpower, Int64.toInt_inj.1 hk]
  exact ⟨rfl, (next (by decide)).fails.2 fun hfits =>
    absurd hfits.1 (by decide), (long (by decide)).2⟩

/-- The powers of 1 are 1, which fits. One with a long exponent fails all the same: a program that
asks for it ends with the overflow and prints nothing. -/
theorem long_power_of_one_refused :
    let source := "PRINT 1 ^ 4294967296"
    (1 : Int64).toInt ^ (4294967296 : Int64).toInt.toNat = 1 ∧
    (¬∃ r, Value.binary #[] .power (.int 1) (.int 4294967296) = .ok r) ∧
    ∃ (tree : Node) (m : Machine), Reader.program? [] [source] = some tree ∧
      eval 20 (.bottom 256) tree (.fresh .still .empty (.ofOctets [])) =
        .failure (.run .integerOverflow) m ∧
      m.output = "" := by
  intro source
  refine ⟨one_pow _, ?_, ?_⟩
  · rintro ⟨r, hr⟩
    have hlong : Integer.pow? 1 4294967296 = none := Integer.pow?_of_le 1 (by decide)
    have hrefused : Value.binary #[] .power (.int 1) (.int 4294967296) =
        Value.checked (Integer.pow? 1 4294967296) := rfl
    rw [hrefused, hlong] at hr
    cases hr
  · exact exists_failure_of_run (by decide +kernel)

end LineBasic
