import LogCache.QueryApi

namespace LogCache.QueryAnswers

open Envelopes JsonText MapOrders Marshaler MarshalRoundTrip QueryApi QueryTimes Rounding Runs

variable {F T : Type} {codec : Codec T} {floats : Floats F} {lib : Library} {engine : Engine F}

section times

/-- `strconv.ParseFloat` reads a number of milliseconds as the nearest double,
and `%.3f` prints that double. -/
def Decimals (floats : Floats F) : Prop :=
  ∃ double : ℚ → F, ∀ ms : Int, ms.natAbs < 2 ^ 52 →
    floats.parseFloat (fixed (decide (ms < 0)) ms.natAbs) = .ok (double (seconds ms)) ∧
      floats.formatMillis (double (seconds ms)) = formatFixed (seconds ms)

theorem exact_formatPromqlTime (h : Decimals floats) {t : Int64} (ht : t.toInt.natAbs < 2 ^ 52) :
    Exact floats (formatPromqlTime t) := by
  obtain ⟨double, hdouble⟩ := h
  obtain ⟨hparse, hformat⟩ := hdouble t.toInt ht
  rw [formatPromqlTime_eq ht]
  exact ⟨threeDecimals_fixed _ _, _, hparse, hformat.trans (formatFixed_seconds ht)⟩

theorem toInt_timeMilliseconds (t : Time) :
    (timeMilliseconds t).toInt = (Int64.ofInt t.unixNano).toInt.tdiv 1000000 :=
  Int64.toInt_div_of_ne_right _ _ (by decide)

theorem timeMilliseconds_lt (t : Time) : (timeMilliseconds t).toInt.natAbs < 2 ^ 52 := by
  have hle := Int64.le_toInt (Int64.ofInt t.unixNano)
  have hlt := Int64.toInt_lt (Int64.ofInt t.unixNano)
  have habs : (Int64.ofInt t.unixNano).toInt.natAbs ≤ 2 ^ 63 := by omega
  rw [toInt_timeMilliseconds, Int.natAbs_tdiv]
  exact (Nat.div_le_div_right habs).trans_lt (by decide)

end times

section answers

/-- The points of an evaluation are at times of `int64` nanoseconds. -/
def Engine.Timed (engine : Engine F) : Prop :=
  ∀ query start stop interval mat, (engine.eval query start stop interval).2 = .ok mat →
    ∀ s ∈ mat, ∀ p ∈ s.points, p.t.toInt.natAbs < 2 ^ 52

def ValueTimed : Value F → Prop
  | .scalar p => p.t.toInt.natAbs < 2 ^ 52
  | .vector samples => ∀ s ∈ samples, s.2.t.toInt.natAbs < 2 ^ 52
  | .matrix series => ∀ s ∈ series, ∀ p ∈ s.points, p.t.toInt.natAbs < 2 ^ 52
  | .string _ => True

variable {type : ValueType}

theorem instantValue_timed {start : Time} {mat : List (EngineSeries F)} {value : Value F}
    (hmat : ∀ s ∈ mat, ∀ p ∈ s.points, p.t.toInt.natAbs < 2 ^ 52)
    (h : instantValue type start mat = .ok value) :
    ValueTimed value := by
  cases type with
  | none => cases h
  | string => cases h
  | matrix =>
      cases h
      exact hmat
  | scalar =>
      cases mat with
      | nil => cases h
      | cons s mat =>
          obtain ⟨metric, points⟩ := s
          cases points with
          | nil => cases h
          | cons p points =>
              cases h
              exact timeMilliseconds_lt start
  | vector =>
      obtain ⟨samples, hsamples, rfl⟩ := map_ok h
      intro s hs
      obtain ⟨series, -, hseries⟩ := exists_of_mem_mapM hsamples hs
      rw [instantSample] at hseries
      cases hpoints : series.points with
      | nil =>
          rw [hpoints] at hseries
          cases hseries
      | cons p points =>
          rw [hpoints] at hseries
          cases hseries
          exact timeMilliseconds_lt start

theorem exec_timed (htimed : Engine.Timed engine) {query : String} {start stop : Time}
    {interval : Int64} {value : Value F}
    (h : exec engine type query start stop interval = .ok (.ok value)) : ValueTimed value := by
  cases heval : (engine.eval query start stop interval).2 with
  | error err =>
      rw [exec_of_error heval] at h
      cases h
  | ok mat =>
      have hmat := htimed query start stop interval mat heval
      by_cases hinstant : start = stop ∧ interval = 0
      · obtain ⟨rfl, rfl⟩ := hinstant
        rw [exec_of_instant heval] at h
        obtain ⟨value', hvalue, hok⟩ := map_ok h
        cases hok
        exact instantValue_timed hmat hvalue
      · rw [exec_of_range heval hinstant] at h
        cases h
        exact hmat

theorem answered {R : Type} {closureErr : Option String} {failures failures' : Nat}
    {r : Except Panic (Except String (Value F))}
    {toResult : Except String (Value F) → Except Panic (Except String R)} {v : R}
    (h : answer closureErr failures r toResult = .ok (failures', .ok v)) :
    ∃ x, r = .ok x ∧ toResult x = .ok (.ok v) := by
  obtain ⟨x, hx, h⟩ := bind_ok h
  cases closureErr with
  | some err => cases h
  | none =>
      obtain ⟨result, hresult, hpair⟩ := map_ok h
      cases hpair
      exact ⟨x, hx, hresult⟩

theorem seriesExact_of_timed (hdecimals : Decimals floats) {s : EngineSeries F}
    (hs : ∀ p ∈ s.points, p.t.toInt.natAbs < 2 ^ 52) : SeriesExact floats (toSeries s) := by
  intro p hp
  obtain ⟨q, hq, rfl⟩ := List.mem_map.mp hp
  exact exact_formatPromqlTime hdecimals (hs q hq)

theorem instantExact_of_timed (hdecimals : Decimals floats) {value : Value F}
    (hvalue : ValueTimed value) {v : InstantQueryResult F}
    (h : toInstantQueryResult (.ok value) = .ok (.ok v)) : InstantExact floats v := by
  cases value with
  | string text => cases h
  | scalar p =>
      cases h
      exact exact_formatPromqlTime hdecimals hvalue
  | vector samples =>
      cases h
      intro s hs
      obtain ⟨sample, hsample, rfl⟩ := List.mem_map.mp hs
      exact ⟨_, rfl, exact_formatPromqlTime hdecimals (hvalue sample hsample)⟩
  | matrix series =>
      cases h
      intro s hs
      obtain ⟨t, ht, rfl⟩ := List.mem_map.mp hs
      exact seriesExact_of_timed hdecimals (hvalue t ht)

theorem rangeExact_of_timed (hdecimals : Decimals floats) {value : Value F}
    (hvalue : ValueTimed value) {v : RangeQueryResult F}
    (h : toRangeQueryResult (.ok value) = .ok (.ok v)) : RangeExact floats v := by
  cases value with
  | string text => cases h
  | scalar p => cases h
  | vector samples => cases h
  | matrix series =>
      cases h
      refine ⟨_, rfl, ?_⟩
      intro s hs
      obtain ⟨t, ht, rfl⟩ := List.mem_map.mp hs
      exact seriesExact_of_timed hdecimals (hvalue t ht)

variable (htimed : Engine.Timed engine) (hdecimals : Decimals floats) {failures failures' : Nat}
include htimed hdecimals

theorem instantQuery_exact {now : Int} {req : InstantQueryRequest} {v : InstantQueryResult F}
    (h : instantQuery lib engine now failures req = .ok (failures', .ok v)) :
    InstantExact floats v := by
  rcases instantQuery_cases engine now failures req with ⟨err, hquery, -⟩ | ⟨t, type, -, -, hquery⟩
  · rw [hquery] at h
    cases h
  · rw [hquery] at h
    obtain ⟨x, hx, hresult⟩ := answered h
    cases x with
    | error err => cases hresult
    | ok value => exact instantExact_of_timed hdecimals (exec_timed htimed hx) hresult

theorem rangeQuery_exact {req : RangeQueryRequest} {v : RangeQueryResult F}
    (h : rangeQuery lib engine failures req = .ok (failures', .ok v)) : RangeExact floats v := by
  rcases rangeQuery_cases engine 0 failures req with ⟨err, hquery, -⟩ |
    ⟨step, start, stop, type, -, -, -, -, -, hquery⟩
  · rw [hquery] at h
    cases h
  · rw [hquery] at h
    obtain ⟨x, hx, hresult⟩ := answered h
    cases x with
    | error err => cases hresult
    | ok value => exact rangeExact_of_timed hdecimals (exec_timed htimed hx) hresult

end answers

/-- Whatever the queries answer is written as JSON and read back as it was,
times included: no side condition on the result is left. -/
theorem answers_round_trip {F T : Type} (codec : Codec T) (floats : Floats F)
    (order : MapOrder String) (hcodec : codec.Lawful) (hfloats : Inverts floats)
    (hdecimals : Decimals floats) (lib : Library) (engine : Engine F) (htimed : Engine.Timed engine)
    (failures failures' : Nat) :
    (∀ now req v, instantQuery lib engine now failures req = .ok (failures', .ok v) →
      ∃ bytes, marshalInstant codec floats order v = .ok bytes ∧
        unmarshalInstant codec floats bytes = .ok v) ∧
    ∀ req v, rangeQuery lib engine failures req = .ok (failures', .ok v) →
      ∃ bytes, marshalRange codec floats order v = .ok bytes ∧
        unmarshalRange codec floats bytes = .ok v := by
  constructor
  · intro now req v h
    obtain ⟨resultType, j, hj, hassemble, hdisassemble⟩ :=
      instant_round_trip hcodec hfloats order (instantQuery_exact htimed hdecimals h)
    exact (document_round_trip hcodec resultType hj hassemble hdisassemble).1
  · intro req v h
    obtain ⟨resultType, j, hj, hassemble, hdisassemble⟩ :=
      range_round_trip hcodec hfloats order (rangeQuery_exact htimed hdecimals h)
    exact (document_round_trip hcodec resultType hj hassemble hdisassemble).1

theorem decimals_texts : Decimals texts :=
  ⟨formatFixed, fun _ h => ⟨congrArg Except.ok (formatFixed_seconds h).symm, rfl⟩⟩

def literal : Engine String where
  parseExpr query := if query = "1" then .ok .scalar else .error "unexpected end of input"
  eval _ start _ _ := (none, .ok [⟨[], [⟨timeMilliseconds start, "1"⟩]⟩])

theorem timed_literal : Engine.Timed literal := by
  intro query start stop interval mat h
  cases h
  simpa using timeMilliseconds_lt start

theorem answers_round_trip_literal :
    ∃ v, instantQuery zeros literal 1600000000123456789 0 ⟨"1", ""⟩ = .ok (0, .ok v) ∧
      ∃ bytes, marshalInstant lines texts .any v = .ok bytes ∧
        unmarshalInstant lines texts bytes = .ok v := by
  obtain ⟨v, hv⟩ : ∃ v,
      instantQuery zeros literal 1600000000123456789 0 ⟨"1", ""⟩ = .ok (0, .ok v) := ⟨_, rfl⟩
  exact ⟨v, hv, (answers_round_trip lines texts .any lawful_lines (fun _ => rfl) decimals_texts
    zeros literal timed_literal 0 0).1 1600000000123456789 ⟨"1", ""⟩ v hv⟩

section reread

theorem inNanoseconds_seconds {ms : Int} (hms : 0 ≤ ms) (hsmall : ms ≤ 9223372036854) :
    (Number.finite (seconds ms)).inNanoseconds = .finite (float64 (seconds ms * 10 ^ 9)) ∧
      float64 (seconds ms * 10 ^ 9) < 2 ^ 63 := by
  obtain ⟨hnonneg, herr⟩ := nanoseconds_error hms hsmall
  have hle : (ms : ℚ) ≤ 9223372036854 := by exact_mod_cast hsmall
  have hlt : float64 (seconds ms * 10 ^ 9) < 2 ^ 63 := by
    have hupper : float64 (seconds ms * 10 ^ 9) ≤ 9223372036854 * 10 ^ 6 + 4096 := by
      linarith [(abs_le.mp herr).2]
    exact hupper.trans_lt (by norm_num)
  have hpow : (2 : ℚ) ^ 63 ≤ 2 ^ 1024 := pow_le_pow_right₀ (by norm_num) (by decide)
  refine ⟨?_, hlt⟩
  simp only [Number.inNanoseconds]
  rw [abs_of_nonneg hnonneg, if_neg (not_le.mpr (hlt.trans_le hpow))]

/-- A time as the answers have it, asked for again: the millisecond is the same
if its nanoseconds, rounded twice, do not come out below it, and the one before
otherwise. -/
theorem reread_time (lib : Library) (call : Nat) (t : Int64) (ht : 0 ≤ t.toInt)
    (hsmall : t.toInt ≤ 9223372036854)
    (hparse : lib.parseFloat (fixed false t.toInt.toNat) = some (.finite (seconds t.toInt))) :
    ∃ u, parseTime lib call (formatPromqlTime t) = .ok u ∧
      (timeMilliseconds u).toInt =
        if (t.toInt : ℚ) * 10 ^ 6 ≤ float64 (seconds t.toInt * 10 ^ 9) then t.toInt
        else t.toInt - 1 := by
  obtain ⟨hnanoseconds, hlt⟩ := inNanoseconds_seconds ht hsmall
  have hnonneg := (nanoseconds_error ht hsmall).1
  have htext : formatPromqlTime t = fixed false t.toInt.toNat := by
    rw [formatPromqlTime_eq (by omega), decide_eq_false (not_lt.mpr ht)]
    congr 1
    omega
  have hconvert : (lib.toInt64 (.finite (float64 (seconds t.toInt * 10 ^ 9)))).toInt =
      nanoseconds (seconds t.toInt) :=
    lib.toInt64_eq _ (le_trans (by norm_num) hnonneg) hlt
  refine ⟨⟨nanoseconds (seconds t.toInt), .home⟩, ?_, ?_⟩
  · simp only [parseTime, htext, hparse, hnanoseconds, hconvert]
  · have hint : (Int64.ofInt (nanoseconds (seconds t.toInt))).toInt =
        nanoseconds (seconds t.toInt) := by
      rw [← hconvert, Int64.ofInt_toInt]
    have hpos : 0 ≤ nanoseconds (seconds t.toInt) := (toInt_error hnonneg).1
    rw [toInt_timeMilliseconds, hint, Int.tdiv_eq_ediv_of_nonneg hpos]
    rcases reread_cases ht hsmall with ⟨hsame, hle⟩ | ⟨hbefore, hbelow⟩
    · rw [if_pos hle]
      exact hsame
    · rw [if_neg (not_le.mpr hbelow)]
      exact hbefore

def single : Library where
  parseFloat param := if param = "1.001" then some (.finite (seconds 1001)) else none
  parseRFC3339Nano _ _ := none
  parseDuration _ := none
  quote := id
  toInt64 := zeros.toInt64
  toInt64_eq := zeros.toInt64_eq

theorem reread_time_before :
    formatPromqlTime 1001 = "1.001" ∧
      ∃ u, parseTime single 0 "1.001" = .ok u ∧ (timeMilliseconds u).toInt = 1000 := by
  have hfixed : fixed false 1001 = "1.001" := by decide +kernel
  have htext : formatPromqlTime 1001 = "1.001" := (formatPromqlTime_eq (by decide)).trans hfixed
  have hbelow : ¬((1001 : Int) : ℚ) * 10 ^ 6 ≤ float64 (seconds 1001 * 10 ^ 9) := by decide +kernel
  have hparse : single.parseFloat (fixed false 1001) = some (.finite (seconds 1001)) := by
    simp [single, hfixed]
  obtain ⟨u, hu, hms⟩ := reread_time single 0 1001 (by decide) (by decide) hparse
  rw [htext] at hu
  exact ⟨htext, u, hu, hms.trans (if_neg hbelow)⟩

end reread

end LogCache.QueryAnswers
