import LogCache.MarshalRoundTrip
import LogCache.QueryTimes

namespace LogCache.QueryApi

open Envelopes MapOrders Marshaler QueryTimes Rounding Runs

section parsing

inductive Number
  | finite (x : ℚ)
  | infinite (negative : Bool)
  | nan

def Number.inNanoseconds : Number → Number
  | .finite x =>
      let product := float64 (x * 10 ^ 9)
      if 2 ^ 1024 ≤ |product| then .infinite (decide (product < 0)) else .finite product
  | x => x

def Number.lt : Number → Number → Bool
  | .finite x, .finite y => decide (x < y)
  | .infinite true, .finite _ | .finite _, .infinite false | .infinite true, .infinite false => true
  | _, _ => false

/-- A location is a pointer: to that of UTC, to the local one or to a zone with
a fixed offset. -/
inductive Location
  | utc
  | home
  | fixed (pointer : Nat)
  deriving DecidableEq

structure Time where
  unixNano : Int
  loc : Location
  deriving DecidableEq

/-- `strconv.ParseFloat`, `time.Parse` and `model.ParseDuration` where they
succeed, the `%q` of a text, and the conversion to an `int64`, which is left
open outside its range. Two calls of `time.Parse` may give two pointers. -/
structure Library where
  parseFloat : String → Option Number
  parseRFC3339Nano : Nat → String → Option Time
  parseDuration : String → Option Int64
  quote : String → String
  toInt64 : Number → Int64
  toInt64_eq : ∀ x, -2 ^ 63 ≤ x → x < 2 ^ 63 → (toInt64 (.finite x)).toInt = toInt x

variable (lib : Library)

def parseDuration (param : String) : Except String Int64 :=
  match lib.parseDuration param with
  | some duration => .ok duration
  | none => .error ("cannot parse " ++ lib.quote param ++ " to a valid duration")

def parseStep (param : String) : Except String Int64 :=
  match lib.parseFloat param with
  | some step =>
      if (Number.finite (2 ^ 63)).lt step.inNanoseconds ∨
        step.inNanoseconds.lt (.finite (-2 ^ 63)) then
        .error ("cannot parse " ++ lib.quote param ++ " to a valid step. It overflows int64")
      else .ok (lib.toInt64 step.inNanoseconds)
  | none =>
      match parseDuration lib param with
      | .ok step => .ok step
      | .error _ => .error ("cannot parse " ++ lib.quote param ++ " to a valid step")

def parseTime (call : Nat) (param : String) : Except String Time :=
  match lib.parseFloat param with
  | some decimalTime => .ok ⟨(lib.toInt64 decimalTime.inNanoseconds).toInt, .home⟩
  | none =>
      match lib.parseRFC3339Nano call param with
      | some t => .ok t
      | none =>
          .error ("cannot parse " ++ lib.quote param ++ " to a valid Unix or RFC3339 timestamp")

end parsing

section engine

variable (F : Type)

inductive ValueType
  | none
  | scalar
  | vector
  | matrix
  | string
  deriving DecidableEq

structure EnginePoint where
  t : Int64
  v : F

structure EngineSeries where
  metric : List (String × String)
  points : List (EnginePoint F)

inductive Value
  | scalar (point : EnginePoint F)
  | vector (samples : List (List (String × String) × EnginePoint F))
  | matrix (series : List (EngineSeries F))
  | string (text : String)

/-- The parser of the engine, and what its evaluator makes of a query from a
start to an end, with the error that the querier has recorded. -/
structure Engine where
  parseExpr : String → Except String ValueType
  eval : String → Time → Time → Int64 → Option String × Except String (List (EngineSeries F))

end engine

variable {F : Type} (lib : Library) (engine : Engine F)

def timeMilliseconds (t : Time) : Int64 := Int64.ofInt t.unixNano / 1000000

def instantSample (start : Time) (s : EngineSeries F) :
    Except Panic (List (String × String) × EnginePoint F) :=
  match s.points with
  | [] => .error .indexOutOfRange
  | p :: _ => .ok (s.metric, ⟨timeMilliseconds start, p.v⟩)

def instantValue (type : ValueType) (start : Time) (mat : List (EngineSeries F)) :
    Except Panic (Value F) :=
  match type with
  | .vector => .vector <$> mat.mapM (instantSample start)
  | .scalar =>
      match mat with
      | ⟨_, p :: _⟩ :: _ => .ok (.scalar ⟨timeMilliseconds start, p.v⟩)
      | _ => .error .indexOutOfRange
  | .matrix => .ok (.matrix mat)
  | .none | .string => .error .unknownType

/-- `execEvalStmt`: a query from a time to itself without an interval is an
instant one. -/
def exec (type : ValueType) (query : String) (start stop : Time) (interval : Int64) :
    Except Panic (Except String (Value F)) :=
  match (engine.eval query start stop interval).2 with
  | .error err => .ok (.error err)
  | .ok mat =>
      if start = stop ∧ interval = 0 then .ok <$> instantValue type start mat
      else .ok (.ok (.matrix mat))

section results

def toMetric (metric : List (String × String)) : GoMap String :=
  insertAll ∅ (metric.map fun l => ⟨l.1, l.2⟩)

def toPoint (p : EnginePoint F) : Point F := ⟨formatPromqlTime p.t, p.v⟩

def toSeries (s : EngineSeries F) : Series F := ⟨toMetric s.metric, s.points.map toPoint⟩

def toInstantQueryResult :
    Except String (Value F) → Except Panic (Except String (InstantQueryResult F))
  | .error err => .ok (.error err)
  | .ok (.scalar p) => .ok (.ok ⟨some (.scalar ⟨formatPromqlTime p.t, p.v⟩)⟩)
  | .ok (.vector samples) =>
      .ok (.ok ⟨some (.vector ⟨samples.map fun s => ⟨toMetric s.1, some (toPoint s.2)⟩⟩)⟩)
  | .ok (.matrix series) => .ok (.ok ⟨some (.matrix ⟨series.map toSeries⟩)⟩)
  | .ok (.string _) => .error .unknownType

def toRangeQueryResult : Except String (Value F) → Except Panic (Except String (RangeQueryResult F))
  | .error err => .ok (.error err)
  | .ok (.matrix series) => .ok (.ok ⟨some ⟨series.map toSeries⟩⟩)
  | .ok _ => .error .unknownType

end results

section queries

structure InstantQueryRequest where
  query : String
  time : String

structure RangeQueryRequest where
  query : String
  start : String
  stop : String
  step : String

/-- What both queries do once the engine has the query: an error of the querier
comes before any other, and is counted. -/
def answer {R : Type} (closureErr : Option String) (failures : Nat)
    (r : Except Panic (Except String (Value F)))
    (toResult : Except String (Value F) → Except Panic (Except String R)) :
    Except Panic (Nat × Except String R) := do
  let r ← r
  match closureErr with
  | some err => return (failures + 1, .error err)
  | none => (failures, ·) <$> toResult r

def requestTime (now : Int) (time : String) : Except String Time :=
  if time = "" then .ok ⟨now / 10 ^ 9 * 10 ^ 9, .home⟩ else parseTime lib 0 time

def instantQuery (now : Int) (failures : Nat) (req : InstantQueryRequest) :
    Except Panic (Nat × Except String (InstantQueryResult F)) :=
  match requestTime lib now req.time with
  | .error err => .ok (failures, .error err)
  | .ok t =>
      match engine.parseExpr req.query with
      | .error err => .ok (failures, .error err)
      | .ok type => answer (engine.eval req.query t t 0).1 failures
        (exec engine type req.query t t 0) toInstantQueryResult

def documentedType : ValueType → String
  | .none => "none"
  | .scalar => "scalar"
  | .vector => "instant vector"
  | .matrix => "range vector"
  | .string => "string"

def newRangeQuery (query : String) : Except String ValueType :=
  match engine.parseExpr query with
  | .error err => .error err
  | .ok type =>
      if type ≠ .vector ∧ type ≠ .scalar then
        .error ("invalid expression type " ++ lib.quote (documentedType type) ++
          " for range query, must be Scalar or instant Vector")
      else .ok type

def rangeQuery (failures : Nat) (req : RangeQueryRequest) :
    Except Panic (Nat × Except String (RangeQueryResult F)) :=
  match parseStep lib req.step with
  | .error err => .ok (failures, .error ("couldn't parse step: " ++ err))
  | .ok step =>
      match parseTime lib 0 req.start with
      | .error err => .ok (failures, .error ("couldn't parse start: " ++ err))
      | .ok startTime =>
          match parseTime lib 1 req.stop with
          | .error err => .ok (failures, .error ("couldn't parse end: " ++ err))
          | .ok endTime =>
              match newRangeQuery lib engine req.query with
              | .error err => .ok (failures, .error err)
              | .ok type =>
                  answer (engine.eval req.query startTime endTime step).1 failures
                    (exec engine type req.query startTime endTime step) toRangeQueryResult

end queries

section shapes

/-- What the evaluator makes of an expression of a type at one time: a point in
every series of a vector, a series for a scalar, and an error for a string. -/
def Shaped : ValueType → List (EngineSeries F) → Prop
  | .vector, mat => ∀ s ∈ mat, s.points ≠ []
  | .scalar, mat => ∃ s rest, mat = s :: rest ∧ s.points ≠ []
  | .matrix, _ => True
  | .none, _ | .string, _ => False

def Engine.Regular : Prop :=
  ∀ query type t mat, engine.parseExpr query = .ok type → (engine.eval query t t 0).2 = .ok mat →
    Shaped type mat

variable {lib engine} {type : ValueType} {start : Time} {mat : List (EngineSeries F)}

theorem instantValue_of_shaped (h : Shaped type mat) :
    (∃ samples, type = .vector ∧ instantValue type start mat = .ok (.vector samples)) ∨
      (∃ p, type = .scalar ∧ instantValue type start mat = .ok (.scalar p)) ∨
        type = .matrix ∧ instantValue type start mat = .ok (.matrix mat) := by
  cases type with
  | none => exact absurd h not_false
  | string => exact absurd h not_false
  | matrix => exact Or.inr (Or.inr ⟨rfl, rfl⟩)
  | scalar =>
      obtain ⟨⟨metric, points⟩, rest, rfl, hpoints⟩ := h
      cases points with
      | nil => exact absurd rfl hpoints
      | cons p points => exact Or.inr (Or.inl ⟨_, rfl, rfl⟩)
  | vector =>
      left
      have hsamples : ∃ samples, mat.mapM (instantSample start) = .ok samples := by
        apply mapM_exists
        intro s hs
        obtain ⟨p, points, hp⟩ := List.exists_cons_of_ne_nil (h s hs)
        exact ⟨_, by rw [instantSample, hp]⟩
      obtain ⟨samples, hsamples⟩ := hsamples
      exact ⟨samples, rfl, by rw [instantValue, hsamples]; rfl⟩

theorem exec_of_error {query : String} {stop : Time} {interval : Int64} {err : String}
    (h : (engine.eval query start stop interval).2 = .error err) :
    exec engine type query start stop interval = .ok (.error err) := by
  rw [exec, h]

theorem exec_of_range {query : String} {stop : Time} {interval : Int64}
    (h : (engine.eval query start stop interval).2 = .ok mat)
    (hrange : ¬(start = stop ∧ interval = 0)) :
    exec engine type query start stop interval = .ok (.ok (.matrix mat)) := by
  rw [exec, h]
  exact if_neg hrange

theorem exec_of_instant {query : String} (h : (engine.eval query start start 0).2 = .ok mat) :
    exec engine type query start start 0 = .ok <$> instantValue type start mat := by
  rw [exec, h]
  exact if_pos ⟨rfl, rfl⟩

theorem newRangeQuery_ok {query : String} (h : newRangeQuery lib engine query = .ok type) :
    engine.parseExpr query = .ok type ∧ (type = .vector ∨ type = .scalar) := by
  rw [newRangeQuery] at h
  cases hparse : engine.parseExpr query with
  | error err =>
      rw [hparse] at h
      cases h
  | ok parsed =>
      simp only [hparse] at h
      split_ifs at h with htype
      cases h
      exact ⟨rfl, by tauto⟩

end shapes

section outcomes

variable {lib engine} {type : ValueType} {R : Type} {failures : Nat}
  {toResult : Except String (Value F) → Except Panic (Except String R)}

theorem answer_none (r : Except String (Value F)) :
    answer none failures (.ok r) toResult = (failures, ·) <$> toResult r := rfl

theorem answer_ok (closureErr : Option String) {r : Except String (Value F)}
    (h : closureErr = none → ∃ result, toResult r = .ok result) :
    Prod.fst <$> answer closureErr failures (.ok r) toResult =
      .ok (failures + closureErr.isSome.toNat) := by
  cases closureErr with
  | some err => rfl
  | none =>
      obtain ⟨result, hresult⟩ := h rfl
      rw [answer_none, hresult]
      rfl

theorem answer_error {r : Except String (Value F)} {p : Panic} (h : toResult r = .error p) :
    answer none failures (.ok r) toResult = .error p := by
  rw [answer_none, h]
  rfl

theorem instant_answered (hregular : engine.Regular) {query : String}
    (hparse : engine.parseExpr query = .ok type) (t : Time) :
    ∃ r result, exec engine type query t t 0 = .ok r ∧ toInstantQueryResult r = .ok result := by
  cases heval : (engine.eval query t t 0).2 with
  | error err => exact ⟨.error err, .error err, exec_of_error heval, rfl⟩
  | ok mat =>
      rw [exec_of_instant heval]
      rcases instantValue_of_shaped (hregular query type t mat hparse heval) with
        ⟨samples, -, hvalue⟩ | ⟨p, -, hvalue⟩ | ⟨-, hvalue⟩ <;>
      · rw [hvalue]
        exact ⟨_, _, rfl, rfl⟩

theorem range_unanswered (hregular : engine.Regular) {query : String}
    (hquery : newRangeQuery lib engine query = .ok type) {t : Time} {mat : List (EngineSeries F)}
    (heval : (engine.eval query t t 0).2 = .ok mat) :
    ∃ r, exec engine type query t t 0 = .ok r ∧ toRangeQueryResult r = .error .unknownType := by
  obtain ⟨hparse, htype⟩ := newRangeQuery_ok hquery
  rw [exec_of_instant heval]
  rcases instantValue_of_shaped (hregular query type t mat hparse heval) with
    ⟨samples, -, hvalue⟩ | ⟨p, -, hvalue⟩ | ⟨hmatrix, -⟩
  · rw [hvalue]
    exact ⟨_, rfl, rfl⟩
  · rw [hvalue]
    exact ⟨_, rfl, rfl⟩
  · rw [hmatrix] at htype
    rcases htype with htype | htype <;> cases htype

theorem range_answered (hregular : engine.Regular) {query : String}
    (hquery : newRangeQuery lib engine query = .ok type) {start stop : Time} {step : Int64}
    (h : ¬∃ mat, start = stop ∧ step = 0 ∧ engine.eval query start stop step = (none, .ok mat)) :
    ∃ r, exec engine type query start stop step = .ok r ∧
      ((engine.eval query start stop step).1 = none →
        ∃ result, toRangeQueryResult r = .ok result) := by
  cases heval : (engine.eval query start stop step).2 with
  | error err => exact ⟨.error err, exec_of_error heval, fun _ => ⟨_, rfl⟩⟩
  | ok mat =>
      by_cases hinstant : start = stop ∧ step = 0
      · obtain ⟨rfl, rfl⟩ := hinstant
        obtain ⟨r, hexec, -⟩ := range_unanswered hregular hquery heval
        -- only an error of the querier keeps the missing matrix from being noticed
        exact ⟨r, hexec, fun hclosure => absurd ⟨mat, rfl, rfl, Prod.ext hclosure heval⟩ h⟩
      · exact ⟨_, exec_of_range heval hinstant, fun _ => ⟨_, rfl⟩⟩

end outcomes

section server

inductive Request
  | instant (req : InstantQueryRequest)
  | range (req : RangeQueryRequest)

structure Call (F : Type) where
  now : Int
  engine : Engine F
  request : Request

/-- The counter of failures after a call. Nothing recovers from a panic in a
handler, so the process ends with it. -/
def serve (failures : Nat) (c : Call F) : Except Panic Nat :=
  match c.request with
  | .instant req => Prod.fst <$> instantQuery lib c.engine c.now failures req
  | .range req => Prod.fst <$> rangeQuery lib c.engine failures req

/-- What the evaluation gave, for a query that came to be evaluated. -/
def Call.evaluated (c : Call F) : Option (Option String × Except String (List (EngineSeries F))) :=
  match c.request with
  | .instant req => do
      let t ← (requestTime lib c.now req.time).toOption
      let _ ← (c.engine.parseExpr req.query).toOption
      return c.engine.eval req.query t t 0
  | .range req => do
      let step ← (parseStep lib req.step).toOption
      let start ← (parseTime lib 0 req.start).toOption
      let stop ← (parseTime lib 1 req.stop).toOption
      let _ ← (newRangeQuery lib c.engine req.query).toOption
      return c.engine.eval req.query start stop step

def Call.failed (c : Call F) : Bool := (c.evaluated lib).any fun evaluation => evaluation.1.isSome

/-- A range query with a step of zero from a time to itself that is evaluated
without an error. -/
def Call.Fatal (c : Call F) : Prop :=
  ∃ req t type mat, c.request = .range req ∧ parseStep lib req.step = .ok 0 ∧
    parseTime lib 0 req.start = .ok t ∧
    parseTime lib 1 req.stop = .ok t ∧ newRangeQuery lib c.engine req.query = .ok type ∧
    c.engine.eval req.query t t 0 = (none, .ok mat)

variable {lib} {c : Call F}

theorem instantQuery_cases (engine : Engine F) (now : Int) (failures : Nat)
    (req : InstantQueryRequest) :
    (∃ err, instantQuery lib engine now failures req = .ok (failures, .error err) ∧
      (⟨now, engine, .instant req⟩ : Call F).evaluated lib = none) ∨
    ∃ t type, engine.parseExpr req.query = .ok type ∧
      (⟨now, engine, .instant req⟩ : Call F).evaluated lib = some (engine.eval req.query t t 0) ∧
      instantQuery lib engine now failures req =
        answer (engine.eval req.query t t 0).1 failures
          (exec engine type req.query t t 0) toInstantQueryResult := by
  simp only [instantQuery, Call.evaluated]
  cases htime : requestTime lib now req.time with
  | error err => exact Or.inl ⟨err, rfl, rfl⟩
  | ok t =>
      cases hparse : engine.parseExpr req.query with
      | error err => exact Or.inl ⟨err, rfl, rfl⟩
      | ok type => exact Or.inr ⟨t, type, rfl, rfl, rfl⟩

theorem rangeQuery_cases (engine : Engine F) (now : Int) (failures : Nat)
    (req : RangeQueryRequest) :
    (∃ err, rangeQuery lib engine failures req = .ok (failures, .error err) ∧
      (⟨now, engine, .range req⟩ : Call F).evaluated lib = none) ∨
    ∃ step start stop type, parseStep lib req.step = .ok step ∧
      parseTime lib 0 req.start = .ok start ∧
      parseTime lib 1 req.stop = .ok stop ∧ newRangeQuery lib engine req.query = .ok type ∧
      (⟨now, engine, .range req⟩ : Call F).evaluated lib =
        some (engine.eval req.query start stop step) ∧
      rangeQuery lib engine failures req =
        answer (engine.eval req.query start stop step).1 failures
          (exec engine type req.query start stop step)
          toRangeQueryResult := by
  simp only [rangeQuery, Call.evaluated]
  cases hstep : parseStep lib req.step with
  | error err => exact Or.inl ⟨_, rfl, rfl⟩
  | ok step =>
      cases hstart : parseTime lib 0 req.start with
      | error err => exact Or.inl ⟨_, rfl, rfl⟩
      | ok start =>
          cases hstop : parseTime lib 1 req.stop with
          | error err => exact Or.inl ⟨_, rfl, rfl⟩
          | ok stop =>
              cases hquery : newRangeQuery lib engine req.query with
              | error err => exact Or.inl ⟨_, rfl, rfl⟩
              | ok type => exact Or.inr ⟨step, start, stop, type, rfl, rfl, rfl, rfl, rfl, rfl⟩

theorem serve_of_fatal (hregular : c.engine.Regular) (h : c.Fatal lib) (failures : Nat) :
    serve lib failures c = .error .unknownType := by
  obtain ⟨req, t, type, mat, hrequest, hstep, hstart, hstop, hquery, heval⟩ := h
  obtain ⟨r, hexec, hr⟩ := range_unanswered hregular hquery (congrArg Prod.snd heval)
  have hrange : rangeQuery lib c.engine failures req = .error .unknownType := by
    simp only [rangeQuery, hstep, hstart, hstop, hquery, hexec, heval]
    exact answer_error hr
  simp only [serve, hrequest, hrange]
  rfl

theorem serve_instant (hregular : c.engine.Regular) {req : InstantQueryRequest}
    (hrequest : c.request = .instant req) (failures : Nat) :
    serve lib failures c = .ok (failures + (c.failed lib).toNat) := by
  obtain ⟨now, engine, request⟩ := c
  cases hrequest
  rw [Call.failed]
  rcases instantQuery_cases engine now failures req with ⟨err, hquery, hnone⟩ | ⟨t, type, hparse,
    hsome, hquery⟩
  · rw [hnone]
    simp only [serve, hquery]
    rfl
  · obtain ⟨r, result, hexec, hresult⟩ := instant_answered hregular hparse t
    rw [hsome]
    simp only [serve, hquery, hexec]
    exact answer_ok _ fun _ => ⟨result, hresult⟩

theorem serve_range (hregular : c.engine.Regular) {req : RangeQueryRequest}
    (hrequest : c.request = .range req) (h : ¬c.Fatal lib) (failures : Nat) :
    serve lib failures c = .ok (failures + (c.failed lib).toNat) := by
  obtain ⟨now, engine, request⟩ := c
  cases hrequest
  rw [Call.failed]
  rcases rangeQuery_cases engine now failures req with ⟨err, hrange, hnone⟩ |
    ⟨step, start, stop, type, hstep, hstart, hstop, hquery, hsome, hrange⟩
  · rw [hnone]
    simp only [serve, hrange]
    rfl
  · have hevaluated : ¬∃ mat, start = stop ∧ step = 0 ∧
        engine.eval req.query start stop step = (none, .ok mat) := by
      rintro ⟨mat, rfl, rfl, heval⟩
      exact h ⟨req, start, type, mat, rfl, hstep, hstart, hstop, hquery, heval⟩
    obtain ⟨r, hexec, hresult⟩ := range_answered hregular hquery hevaluated
    rw [hsome]
    simp only [serve, hrange, hexec]
    exact answer_ok _ hresult

theorem serve_of_not_fatal (hregular : c.engine.Regular) (h : ¬c.Fatal lib) (failures : Nat) :
    serve lib failures c = .ok (failures + (c.failed lib).toNat) := by
  cases hrequest : c.request with
  | instant req => exact serve_instant hregular hrequest failures
  | range req => exact serve_range hregular hrequest h failures

/-- The server lives through a run of queries exactly if none of them is a range
query with a step of zero from a time to itself that is evaluated without an
error, and has then counted the queries that the data reader failed. -/
theorem queries_survived_iff {F : Type} (lib : Library) (calls : List (Call F))
    (hregular : ∀ c ∈ calls, c.engine.Regular) (failures failures' : Nat) :
    run (serve lib) failures calls = .ok failures' ↔
      (∀ c ∈ calls, ¬c.Fatal lib) ∧ failures' = failures + calls.countP (·.failed lib) := by
  induction calls generalizing failures with
  | nil => simp [run, eq_comm]
  | cons c calls ih =>
      have hc := hregular c List.mem_cons_self
      have hcalls : ∀ c ∈ calls, c.engine.Regular :=
        fun d hd => hregular d (List.mem_cons_of_mem _ hd)
      by_cases hfatal : c.Fatal lib
      · rw [run, serve_of_fatal hc hfatal]
        constructor
        · intro h
          cases h
        · intro h
          exact absurd hfatal (h.1 c List.mem_cons_self)
      · rw [run_cons_of_ok (serve_of_not_fatal hc hfatal failures), ih hcalls, List.forall_mem_cons,
          List.countP_cons]
        have hcount : failures + (c.failed lib).toNat + calls.countP (·.failed lib) =
            failures + (calls.countP (·.failed lib) + if c.failed lib then 1 else 0) := by
          cases c.failed lib <;> simp [Nat.add_assoc, Nat.add_comm]
        rw [hcount, and_iff_right hfatal]

def zeros : Library where
  parseFloat param := if param = "0" then some (.finite 0) else none
  parseRFC3339Nano _ _ := none
  parseDuration _ := none
  quote := id
  toInt64
    | .finite x => Int64.ofInt (toInt x)
    | _ => 0
  toInt64_eq x hlower hupper := by
    have hbounds : -2 ^ 63 ≤ toInt x ∧ toInt x < 2 ^ 63 :=
      toInt_bounds (by decide) (by exact_mod_cast hlower) (by exact_mod_cast hupper)
    exact Int64.toInt_ofInt_of_le hbounds.1 hbounds.2

def constant (value : F) : Engine F :=
  ⟨fun _ => .ok .vector, fun _ _ _ _ => (none, .ok [⟨[], [⟨0, value⟩]⟩])⟩

theorem regular_constant (value : F) : (constant value).Regular := by
  intro query type t mat htype hmat
  cases htype
  cases hmat
  intro s hs
  rw [List.mem_singleton.mp hs]
  exact List.cons_ne_nil _ _

theorem inNanoseconds_zero : (Number.finite 0).inNanoseconds = .finite 0 := by
  have hlt : ¬(2 : ℚ) ^ 1024 ≤ 0 := not_le.mpr (by positivity)
  simp only [Number.inNanoseconds, zero_mul, float64_zero, abs_zero]
  rw [if_neg hlt]

theorem toInt64_zeros : zeros.toInt64 (.finite 0) = 0 := by
  simp [zeros, toInt]

theorem parseStep_zeros : parseStep zeros "0" = .ok 0 := by
  have hparse : zeros.parseFloat "0" = some (.finite 0) := rfl
  simp only [parseStep, hparse, inNanoseconds_zero, toInt64_zeros]
  exact if_neg (by norm_num [Number.lt])

theorem parseTime_zeros (call : Nat) : parseTime zeros call "0" = .ok ⟨0, .home⟩ := by
  have hparse : zeros.parseFloat "0" = some (.finite 0) := rfl
  simp only [parseTime, hparse, inNanoseconds_zero, toInt64_zeros]
  rfl

theorem queries_survived_iff_zeros :
    run (serve zeros) 0 [⟨0, constant (), .instant ⟨"up", "0"⟩⟩] = .ok 0 ∧
      ∀ failures, run (serve zeros) 0 [⟨0, constant (), .instant ⟨"up", "0"⟩⟩,
        ⟨0, constant (), .range ⟨"up", "0", "0", "0"⟩⟩] ≠
        .ok failures := by
  constructor
  · refine (queries_survived_iff zeros _ ?_ 0 0).mpr ⟨?_, ?_⟩
    · intro c hc
      rw [List.mem_singleton.mp hc]
      exact regular_constant ()
    · intro c hc
      rw [List.mem_singleton.mp hc]
      rintro ⟨req, t, type, mat, hrequest, -⟩
      cases hrequest
    · simp [Call.failed, Call.evaluated, requestTime, parseTime_zeros, constant, Except.toOption]
  · intro failures h
    have hregular : ∀ c ∈ [(⟨0, constant (), .instant ⟨"up", "0"⟩⟩ : Call Unit),
        ⟨0, constant (), .range ⟨"up", "0", "0", "0"⟩⟩], c.engine.Regular := by
      simp [regular_constant]
    have hfatal :=
      ((queries_survived_iff zeros _ hregular 0 failures).mp h).1
        ⟨0, constant (), .range ⟨"up", "0", "0", "0"⟩⟩
      (by simp)
    exact hfatal ⟨_, _, _, _, rfl, parseStep_zeros, parseTime_zeros 0, parseTime_zeros 1, rfl, rfl⟩

end server

end LogCache.QueryApi
