import LogCache.JsonText
import LogCache.Rounding
import Mathlib.Data.Nat.Digits.Lemmas

namespace LogCache.QueryTimes

open JsonText Rounding

section text

def digitChar (d : Nat) : Char := Char.ofNat (48 + d)

def decimal (n : Nat) : List Char :=
  if n = 0 then ['0'] else (Nat.digits 10 n).reverse.map digitChar

def fixed (negative : Bool) (n : Nat) : String :=
  String.ofList ((if negative then ['-'] else []) ++ decimal (n / 1000) ++
    ['.', digitChar (n / 100 % 10), digitChar (n / 10 % 10), digitChar (n % 10)])

def formatFixed (x : ℚ) : String := fixed (decide (x < 0)) (roundEven (|x| * 1000)).toNat

def formatPromqlTime (timeInMillis : Int64) : String :=
  formatFixed (float64 (float64 timeInMillis.toInt / 1000))

theorem isDigit_digitChar {d : Nat} (h : d < 10) : (digitChar d).isDigit = true := by
  have hall : ∀ d < 10, (digitChar d).isDigit = true := by decide
  exact hall d h

theorem digitChar_ne_zero {d : Nat} (hpos : d ≠ 0) (h : d < 10) : digitChar d ≠ '0' := by
  have hall : ∀ d < 10, d ≠ 0 → digitChar d ≠ '0' := by decide
  exact hall d h hpos

theorem decimal_ne_nil (n : Nat) : decimal n ≠ [] := by
  rw [decimal]
  split_ifs with hn
  · exact List.cons_ne_nil _ _
  · simp [Nat.digits_ne_nil_iff_ne_zero.mpr hn]

theorem isDigit_of_mem_decimal {n : Nat} {c : Char} (h : c ∈ decimal n) : c.isDigit = true := by
  rw [decimal] at h
  split_ifs at h
  · rw [List.mem_singleton.mp h]
    rfl
  · obtain ⟨d, hd, rfl⟩ := List.mem_map.mp h
    exact isDigit_digitChar (Nat.digits_lt_base (by decide) (List.mem_reverse.mp hd))

theorem head_decimal (n : Nat) : (decimal n).head? ≠ some '0' ∨ (decimal n).length = 1 := by
  rw [decimal]
  split_ifs with hn
  · exact Or.inr rfl
  · left
    have hne : Nat.digits 10 n ≠ [] := Nat.digits_ne_nil_iff_ne_zero.mpr hn
    rw [List.head?_map, List.head?_reverse, List.getLast?_eq_some_getLast hne]
    intro heq
    refine digitChar_ne_zero (Nat.getLast_digit_ne_zero 10 hn) ?_ (Option.some.inj heq)
    exact Nat.digits_lt_base (by decide) (List.getLast_mem hne)

theorem threeDecimals_fixed (negative : Bool) (n : Nat) : ThreeDecimals (fixed negative n) := by
  refine ⟨if negative then ['-'] else [], decimal (n / 1000), _, _, _, String.toList_ofList, ?_,
    decimal_ne_nil _, head_decimal _, ?_⟩
  · cases negative
    · exact Or.inl rfl
    · exact Or.inr rfl
  · intro c hc
    rcases List.mem_append.mp hc with hc | hc
    · exact isDigit_of_mem_decimal hc
    · simp only [List.mem_cons, List.not_mem_nil, or_false] at hc
      rcases hc with rfl | rfl | rfl <;> exact isDigit_digitChar (Nat.mod_lt _ (by decide))

end text

section format

variable {ms : Int}

def seconds (ms : Int) : ℚ := float64 (ms / 1000)

theorem abs_seconds (ms : Int) : |seconds ms| = float64 (ms.natAbs / 1000) := by
  rw [seconds, abs_float64, abs_div, ← Int.cast_abs, Int.abs_eq_natAbs, Int.cast_natCast]
  norm_num

theorem seconds_neg_iff (ms : Int) : seconds ms < 0 ↔ ms < 0 := by
  rcases le_or_gt 0 ms with hms | hms
  · have hnonneg : 0 ≤ seconds ms := float64_nonneg (div_nonneg (Int.cast_nonneg hms) (by norm_num))
    exact iff_of_false (not_lt.mpr hnonneg) (not_lt.mpr hms)
  · have hpos : (0 : ℚ) < -(ms / 1000) := by
      have : (ms : ℚ) < 0 := Int.cast_lt_zero.mpr hms
      linarith
    have hfloat := (zpow_pos two_pos _).trans_le (pow_le_float64 hpos)
    rw [float64_neg] at hfloat
    exact iff_of_true (neg_pos.mp hfloat) hms

/-- Up to 2^52 milliseconds the nearest double is near enough for the
millisecond to be read off it again. -/
theorem round_seconds (h : ms.natAbs < 2 ^ 52) : roundEven (|seconds ms| * 1000) = ms.natAbs := by
  have hnonneg : (0 : ℚ) ≤ ms.natAbs / 1000 := div_nonneg (Nat.cast_nonneg _) (by norm_num)
  have hbound : (ms.natAbs : ℚ) * epsilon < 1 / 2 := by
    have hcast : (ms.natAbs : ℚ) < 2 ^ 52 := by exact_mod_cast h
    rw [epsilon]
    linarith
  have herr := float64_error hnonneg
  apply roundEven_eq
  rw [abs_seconds, Int.cast_natCast]
  rw [abs_le] at herr
  rw [abs_lt]
  constructor <;> linarith

theorem formatFixed_seconds (h : ms.natAbs < 2 ^ 52) :
    formatFixed (seconds ms) = fixed (decide (ms < 0)) ms.natAbs := by
  rw [formatFixed, round_seconds h, Int.toNat_natCast]
  simp only [seconds_neg_iff]

theorem float64_intCast (h : ms.natAbs < 2 ^ 53) : float64 ms = ms := by
  rcases Int.natAbs_eq ms with heq | heq
  · rw [heq, Int.cast_natCast]
    exact float64_natCast h
  · rw [heq, Int.cast_neg, Int.cast_natCast, float64_neg, float64_natCast h]

theorem formatPromqlTime_eq {t : Int64} (h : t.toInt.natAbs < 2 ^ 52) :
    formatPromqlTime t = fixed (decide (t.toInt < 0)) t.toInt.natAbs := by
  rw [formatPromqlTime, float64_intCast (h.trans (by decide))]
  exact formatFixed_seconds h

end format

section reread

variable {ms : Int}

def nanoseconds (decimalTime : ℚ) : Int := toInt (float64 (decimalTime * 10 ^ 9))

theorem nanoseconds_error (hms : 0 ≤ ms) (hsmall : ms ≤ 9223372036854) :
    0 ≤ float64 (seconds ms * 10 ^ 9) ∧ |float64 (seconds ms * 10 ^ 9) - ms * 10 ^ 6| ≤ 4096 := by
  have hcast : (0 : ℚ) ≤ ms := Int.cast_nonneg hms
  have hle : (ms : ℚ) ≤ 9223372036854 := by exact_mod_cast hsmall
  have hnonneg : 0 ≤ seconds ms := float64_nonneg (div_nonneg hcast (by norm_num))
  have hscaled : 0 ≤ seconds ms * 10 ^ 9 := mul_nonneg hnonneg (by norm_num)
  have hfirst : |seconds ms - ms / 1000| ≤ ms / 1000 * epsilon :=
    float64_error (div_nonneg hcast (by norm_num))
  have hsecond := float64_error hscaled
  have hproduct : seconds ms * 10 ^ 9 * epsilon ≤ 2048 := by
    rw [epsilon] at hfirst ⊢
    linarith [(abs_le.mp hfirst).2]
  refine ⟨float64_nonneg hscaled, ?_⟩
  rw [epsilon] at hfirst
  rw [abs_le] at hfirst hsecond ⊢
  constructor <;> linarith

/-- A time that was printed is read as the same millisecond or, if rounding
comes out below it, as the one before. -/
theorem reread_cases (hms : 0 ≤ ms) (hsmall : ms ≤ 9223372036854) :
    nanoseconds (seconds ms) / 10 ^ 6 = ms ∧ (ms : ℚ) * 10 ^ 6 ≤ float64 (seconds ms * 10 ^ 9) ∨
      nanoseconds (seconds ms) / 10 ^ 6 = ms - 1 ∧ float64 (seconds ms * 10 ^ 9) < ms * 10 ^ 6 := by
  obtain ⟨hnonneg, herr⟩ := nanoseconds_error hms hsmall
  have hfloor : nanoseconds (seconds ms) = ⌊float64 (seconds ms * 10 ^ 9)⌋ := by
    rw [nanoseconds, toInt, if_pos hnonneg]
  rw [abs_le] at herr
  have hupper : nanoseconds (seconds ms) < (ms + 1) * 10 ^ 6 := by
    rw [hfloor, Int.floor_lt]
    push_cast
    linarith
  rcases le_or_gt ((ms : ℚ) * 10 ^ 6) (float64 (seconds ms * 10 ^ 9)) with hle | hlt
  · have hlower : ms * 10 ^ 6 ≤ nanoseconds (seconds ms) := by
      rw [hfloor, Int.le_floor]
      push_cast
      exact hle
    exact Or.inl ⟨by omega, hle⟩
  · have hlower : (ms - 1) * 10 ^ 6 ≤ nanoseconds (seconds ms) := by
      rw [hfloor, Int.le_floor]
      push_cast
      linarith
    have hbelow : nanoseconds (seconds ms) < ms * 10 ^ 6 := by
      rw [hfloor, Int.floor_lt]
      push_cast
      exact hlt
    exact Or.inr ⟨by omega, hlt⟩

end reread

end LogCache.QueryTimes
