import LogCache.CivilTime
import LogCache.Querier

namespace LogCache.QueryBounds

open CivilTime Envelopes ReadPath Querier

def fromTime (t : DateTime) : Int64 :=
  Int64.ofInt t.unixSeconds * 1000 + Int64.ofNat t.nanosecond / 1000000

def millis (t : DateTime) : Int := t.unixSeconds * 1000 + t.nanosecond / 1000000

theorem millis_bounds (t : DateTime) : -10 ^ 15 ≤ millis t ∧ millis t ≤ 10 ^ 15 := by
  have hdays := t.unixDays_bounds
  have hseconds := t.unixSeconds_bounds
  have := t.year_le
  have := t.nanosecond_lt
  rw [millis]
  omega

theorem toInt_fromTime (t : DateTime) : (fromTime t).toInt = millis t := by
  have hmillis := millis_bounds t
  have hnanosecond := t.nanosecond_lt
  have hdiv : Int64.ofNat t.nanosecond / 1000000 = Int64.ofInt (t.nanosecond / 1000000 : Int) := by
    rw [← Int64.toInt_inj, Int64.toInt_div, Int64.toInt_ofNat_of_lt (by omega), Int64.toInt_ofInt]
    exact congrArg (Int.bmod · (2 ^ 64)) (Int.tdiv_eq_ediv_of_nonneg (Int.natCast_nonneg _))
  rw [fromTime, hdiv, ← show Int64.ofInt 1000 = 1000 from rfl, ← Int64.ofInt_mul,
    ← Int64.ofInt_add, ← millis]
  exact Int64.toInt_ofInt_of_le (by omega) (by omega)

theorem bmod_eq_self_iff (n : Int) : n.bmod (2 ^ 64) = n ↔ -2 ^ 63 ≤ n ∧ n < 2 ^ 63 := by
  constructor
  · intro h
    rw [← h]
    exact ⟨Int.le_bmod (by decide), Int.bmod_lt (by decide)⟩
  · rintro ⟨hle, hlt⟩
    exact Int.bmod_eq_of_le (by omega) (by omega)

section requests

variable (interval : Int64) (dataReader : ReadRequest → Except String (List Envelope))

/-- The request that `Select` makes for a source when the engine has opened the
querier with `mint` and `maxt`. -/
def requestFor (mint maxt : Int64) (sourceID : String) : ReadRequest :=
  request (querier interval dataReader mint maxt) sourceID

theorem toInt_startTime (mint maxt : Int64) (sourceID : String) :
    (requestFor interval dataReader mint maxt sourceID).startTime.toInt =
      (mint.toInt * 10 ^ 6 - 10 ^ 9).bmod (2 ^ 64) := by
  change (mint * 1000000 - 1000000000).toInt = _
  rw [Int64.toInt_sub, Int64.toInt_mul, Int.bmod_sub_bmod]
  rfl

theorem toInt_endTime (mint maxt : Int64) (sourceID : String) :
    (requestFor interval dataReader mint maxt sourceID).endTime.toInt =
      (maxt.toInt * 10 ^ 6).bmod (2 ^ 64) := by
  change (maxt * 1000000).toInt = _
  rw [Int64.toInt_mul]
  rfl

/-- The bounds of a request are those of the querier, the first a second
earlier, exactly when both fit. -/
theorem request_exact_iff (mint maxt : Int64) (sourceID : String) (horder : mint ≤ maxt) :
    ((requestFor interval dataReader mint maxt sourceID).startTime.toInt =
        mint.toInt * 10 ^ 6 - 10 ^ 9 ∧
      (requestFor interval dataReader mint maxt sourceID).endTime.toInt = maxt.toInt * 10 ^ 6 ∧
      (requestFor interval dataReader mint maxt sourceID).startTime ≤
        (requestFor interval dataReader mint maxt sourceID).endTime) ↔
      -9223372035854 ≤ mint.toInt ∧ maxt.toInt ≤ 9223372036854 := by
  rw [Int64.le_iff_toInt_le] at horder
  rw [Int64.le_iff_toInt_le, toInt_startTime, toInt_endTime]
  constructor
  · rintro ⟨hmint, hmaxt, _⟩
    have := (bmod_eq_self_iff _).mp hmint
    have := (bmod_eq_self_iff _).mp hmaxt
    omega
  · rintro ⟨hmint, hmaxt⟩
    have hmint' := (bmod_eq_self_iff (mint.toInt * 10 ^ 6 - 10 ^ 9)).mpr (by omega)
    have hmaxt' := (bmod_eq_self_iff (maxt.toInt * 10 ^ 6)).mpr (by omega)
    exact ⟨hmint', hmaxt', by rw [hmint', hmaxt']; omega⟩

end requests

def newYear (year : Nat) (h : year ≤ 9999) : DateTime where
  year := year
  month := 1
  day := 1
  hour := 0
  minute := 0
  second := 0
  nanosecond := 0
  offset := 0
  year_le := h
  month_pos := by decide
  month_le := by decide
  day_pos := by decide
  day_le := by simp [daysIn]
  hour_lt := by decide
  minute_lt := by decide
  second_lt := by decide
  nanosecond_lt := by decide
  offset_le := by decide
  le_offset := by decide

/-- The bounds 1970 and 1980, as `timestamp.FromTime` gives them to the engine. -/
theorem request_exact_seventies :
    (requestFor 1000000000 (fun _ => .ok []) (fromTime (newYear 1970 (by decide)))
        (fromTime (newYear 1980 (by decide))) "a").startTime.toInt = -10 ^ 9 ∧
      (requestFor 1000000000 (fun _ => .ok []) (fromTime (newYear 1970 (by decide)))
        (fromTime (newYear 1980 (by decide))) "a").endTime.toInt = 315532800000 * 10 ^ 6 := by
  have hmint : (fromTime (newYear 1970 (by decide))).toInt = 0 := by
    rw [toInt_fromTime]
    decide +kernel
  have hmaxt : (fromTime (newYear 1980 (by decide))).toInt = 315532800000 := by
    rw [toInt_fromTime]
    decide +kernel
  have h := (request_exact_iff 1000000000 (fun _ => .ok []) (fromTime (newYear 1970 (by decide)))
    (fromTime (newYear 1980 (by decide))) "a" (by rw [Int64.le_iff_toInt_le]; omega)).mpr (by omega)
  rw [hmint, hmaxt] at h
  exact ⟨h.1, h.2.1⟩

/-- The second bound wraps around, and the request ends before it starts. -/
theorem request_wraps :
    fromTime (newYear 2262 (by decide)) ≤ fromTime (newYear 2263 (by decide)) ∧
      (requestFor 1000000000 (fun _ => .ok []) (fromTime (newYear 2262 (by decide)))
          (fromTime (newYear 2263 (by decide))) "a").endTime <
        (requestFor 1000000000 (fun _ => .ok []) (fromTime (newYear 2262 (by decide)))
          (fromTime (newYear 2263 (by decide))) "a").startTime := by
  decide +kernel

end LogCache.QueryBounds
