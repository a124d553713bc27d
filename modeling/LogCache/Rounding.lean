import Mathlib.Data.Int.Log
import Mathlib.Data.Rat.Floor
import Mathlib.Tactic.Linarith
import Mathlib.Tactic.Ring

namespace LogCache.Rounding

section nearest

def roundEven (q : ℚ) : ℤ :=
  if q - ⌊q⌋ < 1 / 2 then ⌊q⌋ else if 1 / 2 < q - ⌊q⌋ then ⌊q⌋ + 1 else if ⌊q⌋ % 2 = 0 then ⌊q⌋
  else ⌊q⌋ + 1

theorem roundEven_intCast (n : ℤ) : roundEven n = n := by
  rw [roundEven, Int.floor_intCast, sub_self, if_pos one_half_pos]

theorem floor_le_roundEven (q : ℚ) : ⌊q⌋ ≤ roundEven q := by
  rw [roundEven]
  split_ifs <;> omega

theorem roundEven_le_floor_add_one (q : ℚ) : roundEven q ≤ ⌊q⌋ + 1 := by
  rw [roundEven]
  split_ifs <;> omega

theorem roundEven_mono {x y : ℚ} (h : x ≤ y) : roundEven x ≤ roundEven y := by
  rcases (Int.floor_mono h).eq_or_lt with heq | hlt
  · -- in the same unit interval the fractional parts decide
    rw [roundEven, roundEven, heq]
    split_ifs <;> first | omega | linarith
  · calc roundEven x ≤ ⌊x⌋ + 1 := roundEven_le_floor_add_one x
      _ ≤ ⌊y⌋ := hlt
      _ ≤ roundEven y := floor_le_roundEven y

theorem le_roundEven {n : ℤ} {q : ℚ} (h : (n : ℚ) ≤ q) : n ≤ roundEven q :=
  (roundEven_intCast n).symm.le.trans (roundEven_mono h)

theorem roundEven_le {n : ℤ} {q : ℚ} (h : q ≤ n) : roundEven q ≤ n :=
  (roundEven_mono h).trans (roundEven_intCast n).le

theorem roundEven_eq {n : ℤ} {q : ℚ} (h : |q - n| < 1 / 2) : roundEven q = n := by
  obtain ⟨hlow, hhigh⟩ := abs_lt.mp h
  rcases le_or_gt (n : ℚ) q with hle | hlt
  · have hfloor : ⌊q⌋ = n := Int.floor_eq_iff.mpr ⟨hle, by linarith⟩
    rw [roundEven, hfloor, if_pos (by linarith)]
  · have hfloor : ⌊q⌋ = n - 1 :=
      Int.floor_eq_iff.mpr ⟨by push_cast; linarith, by push_cast; linarith⟩
    rw [roundEven, hfloor]
    push_cast
    rw [if_neg (by linarith), if_pos (by linarith), sub_add_cancel]

theorem roundEven_neg (q : ℚ) : roundEven (-q) = -roundEven q := by
  rcases (Int.floor_le q).eq_or_lt with heq | hlt
  · rw [← heq, ← Int.cast_neg, roundEven_intCast, roundEven_intCast]
  · have hfloor : ⌊-q⌋ = -⌊q⌋ - 1 :=
      Int.floor_eq_iff.mpr ⟨by push_cast; linarith [Int.lt_floor_add_one q], by push_cast; linarith⟩
    rw [roundEven, roundEven, hfloor]
    push_cast
    split_ifs <;> first | omega | linarith

end nearest

section precision

def ulp (x : ℚ) : ℚ := 2 ^ (Int.log 2 |x| - 52)

/-- A number rounded to 53 binary places. The exponent has no bounds. -/
def float64 (x : ℚ) : ℚ := roundEven (x / ulp x) * ulp x

variable {x y : ℚ}

theorem ulp_pos (x : ℚ) : 0 < ulp x := zpow_pos two_pos _

theorem pow_mul_ulp (n : ℤ) (hx : 0 ≤ x) : (2 : ℚ) ^ n * ulp x = 2 ^ (Int.log 2 x + (n - 52)) := by
  rw [ulp, abs_of_nonneg hx, ← zpow_add₀ two_ne_zero]
  congr 1
  omega

theorem float64_zero : float64 0 = 0 := by
  rw [float64, zero_div]
  exact mul_eq_zero_of_left (congrArg Int.cast (roundEven_intCast 0)) _

theorem pow_le_float64 (hx : 0 < x) : 2 ^ Int.log 2 x ≤ float64 x := by
  have hpow : (2 : ℚ) ^ (52 : ℤ) * ulp x = 2 ^ Int.log 2 x := by
    rw [pow_mul_ulp 52 hx.le, sub_self, add_zero]
  have hle : ((2 ^ 52 : ℤ) : ℚ) ≤ x / ulp x := by
    rw [le_div_iff₀ (ulp_pos x)]
    have hlog := Int.zpow_log_le_self Nat.one_lt_two hx
    push_cast at hlog ⊢
    exact hpow.le.trans hlog
  have hround : ((2 ^ 52 : ℤ) : ℚ) ≤ roundEven (x / ulp x) := Int.cast_le.mpr (le_roundEven hle)
  calc (2 : ℚ) ^ Int.log 2 x = 2 ^ (52 : ℤ) * ulp x := hpow.symm
    _ = ((2 ^ 52 : ℤ) : ℚ) * ulp x := by norm_cast
    _ ≤ float64 x := mul_le_mul_of_nonneg_right hround (ulp_pos x).le

theorem float64_le_pow (hx : 0 ≤ x) : float64 x ≤ 2 ^ (Int.log 2 x + 1) := by
  have hpow : (2 : ℚ) ^ (53 : ℤ) * ulp x = 2 ^ (Int.log 2 x + 1) := pow_mul_ulp 53 hx
  have hle : x / ulp x ≤ ((2 ^ 53 : ℤ) : ℚ) := by
    rw [div_le_iff₀ (ulp_pos x)]
    have hlog := (Int.lt_zpow_succ_log_self Nat.one_lt_two x).le
    push_cast at hlog ⊢
    exact hlog.trans hpow.ge
  have hround : (roundEven (x / ulp x) : ℚ) ≤ ((2 ^ 53 : ℤ) : ℚ) :=
    Int.cast_le.mpr (roundEven_le hle)
  calc float64 x ≤ ((2 ^ 53 : ℤ) : ℚ) * ulp x := mul_le_mul_of_nonneg_right hround (ulp_pos x).le
    _ = 2 ^ (53 : ℤ) * ulp x := by norm_cast
    _ = 2 ^ (Int.log 2 x + 1) := hpow

theorem float64_nonneg (hx : 0 ≤ x) : 0 ≤ float64 x := by
  rcases hx.eq_or_lt with rfl | hpos
  · exact float64_zero.ge
  · exact (zpow_pos two_pos _).le.trans (pow_le_float64 hpos)

theorem float64_mono (hx : 0 ≤ x) (h : x ≤ y) : float64 x ≤ float64 y := by
  rcases hx.eq_or_lt with rfl | hpos
  · rw [float64_zero]
    exact float64_nonneg h
  · rcases (Int.log_mono_right hpos h).eq_or_lt with heq | hlt
    · have hulp : ulp x = ulp y := by
        rw [ulp, ulp, abs_of_nonneg hx, abs_of_nonneg (hx.trans h), heq]
      rw [float64, float64, hulp]
      have hdiv : x / ulp y ≤ y / ulp y := div_le_div_of_nonneg_right h (ulp_pos y).le
      exact mul_le_mul_of_nonneg_right (Int.cast_le.mpr (roundEven_mono hdiv)) (ulp_pos y).le
    · calc float64 x ≤ 2 ^ (Int.log 2 x + 1) := float64_le_pow hx
        _ ≤ 2 ^ Int.log 2 y := zpow_le_zpow_right₀ one_le_two hlt
        _ ≤ float64 y := pow_le_float64 (hpos.trans_le h)

theorem float64_of_int {m : ℤ} (h : x = m * ulp x) : float64 x = x := by
  have hdiv : x / ulp x = m := by rw [div_eq_iff (ulp_pos x).ne']; exact h
  rw [float64, hdiv, roundEven_intCast]
  exact h.symm

theorem float64_natCast {n : ℕ} (h : n < 2 ^ 53) : float64 n = n := by
  have hlog : Int.log 2 (n : ℚ) ≤ 52 := by
    rw [Int.log_natCast]
    have := Nat.lt_succ_iff.mp (Nat.log_lt_of_lt_pow' (by decide) h)
    exact_mod_cast this
  obtain ⟨k, hk⟩ : ∃ k : ℕ, Int.log 2 (n : ℚ) - 52 = -k :=
    ⟨(52 - Int.log 2 (n : ℚ)).toNat, by omega⟩
  apply float64_of_int (m := n * 2 ^ k)
  rw [ulp, abs_of_nonneg n.cast_nonneg, hk, zpow_neg, zpow_natCast]
  push_cast
  rw [mul_assoc, mul_inv_cancel₀ (pow_ne_zero k two_ne_zero), mul_one]

theorem natCast_le_float64 {n : ℕ} (hn : n < 2 ^ 53) (h : n ≤ x) : n ≤ float64 x :=
  (float64_natCast hn).symm.le.trans (float64_mono n.cast_nonneg h)

end precision

section errors

variable {x : ℚ}

theorem roundEven_error (q : ℚ) : |(roundEven q : ℚ) - q| ≤ 1 / 2 := by
  have hfloor := Int.floor_le q
  have hlt := Int.lt_floor_add_one q
  rw [roundEven, abs_le]
  split_ifs with hlow hhigh heven <;> push_cast <;> constructor <;> linarith

def epsilon : ℚ := 1 / 2 ^ 53

theorem float64_error (hx : 0 ≤ x) : |float64 x - x| ≤ x * epsilon := by
  rcases hx.eq_or_lt with rfl | hpos
  · rw [float64_zero, sub_zero, abs_zero, zero_mul]
  · have hulp := ulp_pos x
    have hsplit : float64 x - x = (roundEven (x / ulp x) - x / ulp x) * ulp x := by
      rw [float64, sub_mul, div_mul_cancel₀ _ hulp.ne']
    have hunit : ulp x ≤ x * (1 / 2 ^ 52) := by
      have hlog := Int.zpow_log_le_self Nat.one_lt_two hpos
      have hpow : (2 : ℚ) ^ (52 : ℤ) * ulp x = 2 ^ Int.log 2 x := by
        rw [pow_mul_ulp 52 hx, sub_self, add_zero]
      push_cast at hlog
      rw [← hpow] at hlog
      norm_num at hlog ⊢
      linarith
    rw [hsplit, abs_mul, abs_of_pos hulp, epsilon]
    calc |(roundEven (x / ulp x) : ℚ) - x / ulp x| * ulp x ≤ 1 / 2 * ulp x :=
          mul_le_mul_of_nonneg_right (roundEven_error _) hulp.le
      _ ≤ 1 / 2 * (x * (1 / 2 ^ 52)) := by linarith
      _ = x * (1 / 2 ^ 53) := by ring

theorem float64_neg (x : ℚ) : float64 (-x) = -float64 x := by
  have hulp : ulp (-x) = ulp x := by rw [ulp, ulp, abs_neg]
  rw [float64, float64, hulp, neg_div, roundEven_neg, Int.cast_neg, neg_mul]

theorem abs_float64 (x : ℚ) : |float64 x| = float64 |x| := by
  rcases le_total 0 x with hx | hx
  · rw [abs_of_nonneg hx, abs_of_nonneg (float64_nonneg hx)]
  · have hneg := float64_nonneg (neg_nonneg.mpr hx)
    rw [float64_neg] at hneg
    rw [abs_of_nonpos hx, abs_of_nonpos (neg_nonneg.mp hneg), float64_neg]

def toInt (x : ℚ) : Int := if 0 ≤ x then ⌊x⌋ else ⌈x⌉

theorem toInt_bounds {x : ℚ} {a b : ℤ} (hpos : 0 < b) (ha : a ≤ x) (hb : x < b) :
    a ≤ toInt x ∧ toInt x < b := by
  rw [toInt]
  split_ifs with hx
  · exact ⟨Int.le_floor.mpr ha, Int.floor_lt.mpr hb⟩
  · have hceil : ⌈x⌉ ≤ 0 := Int.ceil_le.mpr (by exact_mod_cast (not_le.mp hx).le)
    exact ⟨Int.cast_le.mp (ha.trans (Int.le_ceil x)), hceil.trans_lt hpos⟩

theorem toInt_error {x : ℚ} (hx : 0 ≤ x) : 0 ≤ toInt x ∧ |(toInt x : ℚ) - x| ≤ 1 := by
  have hle := Int.floor_le x
  have hlt := Int.lt_floor_add_one x
  rw [toInt, if_pos hx, abs_le]
  exact ⟨Int.floor_nonneg.mpr hx, by linarith, by linarith⟩

end errors

end LogCache.Rounding
