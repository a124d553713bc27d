import LogCache.Traversal
import Mathlib.Data.List.DropRight

namespace LogCache.ReadPath

open Envelopes EnvelopeStore Traversal

structure ReadRequest where
  sourceId : String
  startTime : Int64
  endTime : Int64
  limit : Int64
  envelopeTypes : List EnvelopeType
  descending : Bool
  nameFilter : String

abbrev ReadAnswer := Except Panic (Except String (List Envelope))

section localStoreReader

/-- What `regexp.Compile` makes of a pattern: a message, or the predicate that
`MatchString` decides. -/
abbrev Compile := String → Except String (String → Bool)

def compileNameFilter (compile : Compile) (nameFilter : String) :
    Except String (Option (String → Bool)) :=
  if nameFilter = "" then .ok none
  else
    match compile nameFilter with
    | .error err => .error ("Name filter must be a valid regular expression: " ++ err)
    | .ok matchString => .ok (some matchString)

/-- The loop that drops `ANY`; a slice nothing was appended to is nil. -/
def storeTypes (envelopeTypes : List EnvelopeType) : Option (List EnvelopeType) :=
  match envelopeTypes.filter (· ≠ .any) with
  | [] => none
  | types => some types

def read (compile : Compile) (now : Int64) (s : Store) (req : ReadRequest) : ReadAnswer :=
  if req.endTime ≠ 0 ∧ req.endTime < req.startTime then
    .ok (.error ("StartTime (" ++ toString req.startTime ++ ") must be before EndTime (" ++
      toString req.endTime ++ ")"))
  else if 1000 < req.limit
    then .ok (.error ("Limit (" ++ toString req.limit ++ ") must be 1000 or less"))
  else if req.limit < 0
    then .ok (.error ("Limit (" ++ toString req.limit ++ ") must be greater than zero"))
  else
    let endTime := if req.endTime = 0 then now else req.endTime
    let limit := if req.limit = 0 then 100 else req.limit
    match compileNameFilter compile req.nameFilter with
    | .error message => .ok (.error message)
    | .ok nameFilter =>
        .ok <$> get s req.sourceId req.startTime endTime
          (storeTypes req.envelopeTypes) nameFilter limit.toInt
          req.descending

end localStoreReader

section client

structure ReadOptions where
  endTime : Option Int64
  limit : Option Int64
  envelopeTypes : List EnvelopeType
  nameFilter : Option String
  descending : Bool

/-- Types travel by name: a number without a name comes back as `ANY`, the
zero value. -/
def typeByName : EnvelopeType → EnvelopeType
  | .unrecognized _ => .any
  | t => t

def grpcRequest (sourceId : String) (start : Int64) (opts : ReadOptions) : ReadRequest where
  sourceId := sourceId
  startTime := start
  endTime := opts.endTime.getD 0
  limit := opts.limit.getD 0
  envelopeTypes := opts.envelopeTypes.map typeByName
  descending := opts.descending
  nameFilter := opts.nameFilter.getD ""

structure RetryBackoff where
  maxCount : Int
  count : Int
  onlyErr : Bool

def RetryBackoff.onErr (b : RetryBackoff) : RetryBackoff × Bool :=
  ({ b with count := b.count + 1 }, decide (b.count + 1 < b.maxCount))

def RetryBackoff.onEmpty (b : RetryBackoff) : RetryBackoff × Bool :=
  if b.onlyErr then (b, false) else b.onErr

structure WalkConfig where
  stop : Option Int64
  limit : Option Int64
  envelopeTypes : List EnvelopeType
  nameFilter : String
  delay : Int64

structure WalkState where
  start : Int64
  receivedEmpty : Bool
  backoff : RetryBackoff
  visited : List Envelope

def walkOptions (config : WalkConfig) : ReadOptions where
  endTime := config.stop
  limit := config.limit
  envelopeTypes := config.envelopeTypes
  nameFilter := if config.nameFilter = "" then none else some config.nameFilter
  descending := false

/-- `DelayFunc`: drop envelopes from the end while they are too new. -/
def delayFunc (delay now : Int64) (es : List Envelope) : List Envelope :=
  es.rdropWhile fun e => !decide (e.timestamp ≤ now - delay)

def dropBeyond (stop : Option Int64) (es : List Envelope) : List Envelope :=
  match stop with
  | none => es
  | some stop => es.rdropWhile fun e => !decide (e.timestamp < stop)

/-- One turn of the loop of `Walk`, after the read; the flag says whether
there is another. The visitor keeps everything and always wants more. -/
def walkStep (config : WalkConfig) (now : Int64) (answer : Except String (List Envelope))
    (st : WalkState) :
    WalkState × Bool :=
  match answer with
  | .error _ => ({ st with backoff := st.backoff.onErr.1 }, st.backoff.onErr.2)
  | .ok es =>
      let es := if config.stop.isNone || !st.receivedEmpty
          then delayFunc config.delay now es else es
      let es := dropBeyond config.stop es
      match es.getLast? with
      | none =>
          ({ st with receivedEmpty := true, backoff := st.backoff.onEmpty.1 }, st.backoff.onEmpty.2)
      | some last =>
          let st := { st with
            receivedEmpty := false
            backoff := { st.backoff with count := 0 }
            visited := st.visited ++ es }
          if config.stop.any (fun stop => decide (stop ≤ last.timestamp + 1)) then (st, false)
          else ({ st with start := last.timestamp + 1 }, true)

theorem walkStep_ok {config : WalkConfig} {stop : Int64} {st : WalkState}
    (hstop : config.stop = some stop) (hst : st.receivedEmpty = false) (now : Int64)
    (es : List Envelope) :
    walkStep config now (.ok es) st =
      match (dropBeyond (some stop) (delayFunc config.delay now es)).getLast? with
      | none =>
          ({ st with receivedEmpty := true, backoff := st.backoff.onEmpty.1 }, st.backoff.onEmpty.2)
      | some last =>
          if stop ≤ last.timestamp + 1 then
            ({ st with backoff := { st.backoff with count := 0 },
                       visited := st.visited ++
                         dropBeyond (some stop) (delayFunc config.delay now es) }, false)
          else
            ({ st with start := last.timestamp + 1, backoff := { st.backoff with count := 0 },
                       visited := st.visited ++
                         dropBeyond (some stop) (delayFunc config.delay now es) }, true) := by
  simp only [walkStep, hstop, hst, Bool.not_false, Bool.or_true, if_true]
  cases (dropBeyond (some stop) (delayFunc config.delay now es)).getLast? with
  | none => rfl
  | some last => simp [← hst]

/-- `Walk`: the `i`-th turn reads with `reader i` and sees the time `clock i`;
`none` means that the fuel did not suffice. -/
def walk (config : WalkConfig) (reader : Nat → ReadRequest → ReadAnswer) (clock : Nat → Int64)
    (sourceId : String) :
    (fuel i : Nat) → WalkState → Option (Except Panic (List Envelope))
  | 0, _, _ => none
  | fuel + 1, i, st =>
      match reader i (grpcRequest sourceId st.start (walkOptions config)) with
      | .error p => some (.error p)
      | .ok answer =>
          match walkStep config (clock i) answer st with
          | (st, true) => walk config reader clock sourceId fuel (i + 1) st
          | (st, false) => some (.ok st.visited)

end client

/-- `WalkingDataReader.Read` over the reader of a store that does not change. -/
def walkingRead (compile : Compile) (s : Store) (serverClock clock : Nat → Int64) (fuel : Nat)
    (req : ReadRequest) :
    Option (Except Panic (List Envelope)) :=
  walk ⟨some req.endTime, some req.limit, req.envelopeTypes, "", 2⟩
    (fun i => read compile (serverClock i) s) clock
    req.sourceId fuel 0 ⟨req.startTime, false, ⟨5, 0, true⟩, []⟩

end LogCache.ReadPath
