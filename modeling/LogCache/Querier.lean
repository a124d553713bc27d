import LogCache.MapOrders
import LogCache.ReadPath
import LogCache.SourceIds
import Mathlib.Data.Finset.Sort
import Mathlib.Data.String.Basic

namespace LogCache.Querier

open Envelopes MapOrders Promql SourceIds ReadPath

section sanitizing

/-- Whether `^[^A-z_]|[\W_]+?` matches at a character. The second alternative
takes as little as it can, so that every match is one character long. -/
def matchesAt (atStart : Bool) (c : Char) : Bool :=
  atStart && !(decide ('A' ≤ c) && decide (c ≤ 'z') || c == '_') ||
    (!(c.isAlphanum || c == '_') || c == '_')

def replaceAll (atStart : Bool) : List Char → List Char
  | [] => []
  | c :: cs => (if matchesAt atStart c then '_' else c) :: replaceAll false cs

def sanitizeMetricName (name : String) : String := String.ofList (replaceAll true name.toList)

end sanitizing

section numbers

/-- The bits of the double nearest to a natural number, ties to even. The
leading bit of the significand is added to the exponent. -/
def roundToEven (n : Nat) : Nat :=
  if n = 0 then 0
  else if n.log2 ≤ 52 then (n.log2 + 1022) * 2 ^ 52 + n * 2 ^ (52 - n.log2)
  else
    let half := 2 ^ (n.log2 - 53)
    let quotient := n / (2 * half)
    let remainder := n % (2 * half)
    let significand :=
      if half < remainder ∨ remainder = half ∧ quotient % 2 = 1 then quotient + 1 else quotient
    (n.log2 + 1022) * 2 ^ 52 + significand

def float64OfUInt64 (n : UInt64) : Float64 := ⟨UInt64.ofNat (roundToEven n.toNat)⟩

def float64OfInt64 (n : Int64) : Float64 :=
  ⟨UInt64.ofNat ((if n < 0 then 2 ^ 63 else 0) + roundToEven n.toInt.natAbs)⟩

/-- `time.Unix(0, t).Truncate(d).UnixNano()`: multiples of `d` are counted
from the year 1. -/
def truncate (d t : Int64) : Int64 :=
  if d ≤ 0 then t else t - Int64.ofInt ((t.toInt + 62135596800 * 10 ^ 9) % d.toInt)

end numbers

section series

structure Label where
  name : String
  value : String
deriving DecidableEq

structure Point where
  t : Int64
  v : Float64
deriving DecidableEq

structure SeriesData where
  tags : GoMap String
  points : List Point

structure ConcreteSeries where
  labels : List Label
  points : List Point

abbrev SeriesSetBuilder := SyncMap.Map String SeriesData

def getSeriesID (tags : GoMap String) : String :=
  (tags.keys.sort (· ≤ ·)).foldl (fun seriesID k => seriesID ++ "-" ++ k ++ "-" ++
    (tags.lookup k).getD "") ""

def add (b : SeriesSetBuilder) (tags : GoMap String) (s : Point) : SeriesSetBuilder :=
  let seriesID := getSeriesID tags
  let d := (b.lookup seriesID).getD ⟨tags, []⟩
  b.insert seriesID { d with points := d.points ++ [s] }

def convertToLabels (order : MapOrder String) (tags : GoMap String) : List Label :=
  (order.visit tags).map fun p => ⟨p.1, p.2⟩

def buildSeriesSet (order : SyncMap.RangeOrder String SeriesData) (labelOrder : MapOrder String)
    (b : SeriesSetBuilder) : List ConcreteSeries :=
  (order.visit b.entries).map fun p => ⟨convertToLabels labelOrder p.2.tags, p.2.points⟩

def points (b : SeriesSetBuilder) : List Point := b.entries.flatMap fun p => p.2.points

theorem points_add (b : SeriesSetBuilder) (tags : GoMap String) (s : Point) :
    (points (add b tags s)).Perm (points b ++ [s]) := by
  have hinsert : ∀ seriesID d, (points (b.insert seriesID d)) = d.points ++
      points (b.erase seriesID) := by
    intro seriesID d
    rw [points, AList.entries_insert]
    rfl
  rw [add, hinsert]
  cases hlookup : b.lookup (getSeriesID tags) with
  | none =>
      rw [SyncMap.erase_of_lookup_none hlookup]
      exact List.perm_append_comm
  | some d =>
      have hsplit : (points b).Perm (d.points ++ points (b.erase (getSeriesID tags))) :=
        (SyncMap.entries_perm hlookup).flatMap_right _
      refine List.Perm.trans ?_ (hsplit.symm.append_right [s])
      rw [List.append_assoc, List.append_assoc]
      exact List.perm_append_comm.append_left d.points

theorem points_buildSeriesSet (order : SyncMap.RangeOrder String SeriesData)
    (labelOrder : MapOrder String) (b : SeriesSetBuilder) :
    ((buildSeriesSet order labelOrder b).flatMap (·.points)).Perm (points b) := by
  rw [buildSeriesSet, List.flatMap_map]
  exact (order.perm b.entries).flatMap_right _

end series

section querier

structure LogCacheQuerier where
  start : Int64
  stop : Int64
  interval : Int64
  dataReader : ReadRequest → Except String (List Envelope)

def querier (interval : Int64) (dataReader : ReadRequest → Except String (List Envelope))
    (mint maxt : Int64) :
    LogCacheQuerier :=
  ⟨mint * 1000000, maxt * 1000000, interval, dataReader⟩

structure Orders where
  sourceIDs : SyncMap.RangeOrder String Unit
  metrics : Envelope → MapOrder GaugeValue
  data : SyncMap.RangeOrder String SeriesData
  tags : MapOrder String

noncomputable def Orders.any : Orders := ⟨.id, fun _ => .any, .id, .any⟩

structure Selection where
  metric : String
  sourceIDs : StringSet
  ls : List Label

def selectMatcher (selection : Selection) (l : Matcher) : Selection :=
  if l.name = "__name__" then { selection with metric := l.value }
  else if l.name = "source_id" then
    { selection with sourceIDs := addSourceIDsFromLabelMatcher selection.sourceIDs l }
  else { selection with ls := selection.ls ++ [⟨l.name, l.value⟩] }

def selectMatchers (ll : List Matcher) : Selection := ll.foldl selectMatcher ⟨"", ∅, []⟩

def hasLabels (tags : GoMap String) (ls : List Label) : Bool :=
  ls.all fun l => decide (tags.lookup l.name = some l.value)

def checkMapForSanitizedMetricName (order : MapOrder GaugeValue) (metrics : GoMap GaugeValue)
    (metric : String) :
    Option GaugeValue :=
  ((order.visit metrics).find? fun p => decide (sanitizeMetricName p.1 = metric)).map fun p => p.2

/-- The value that the switch over the message takes; `none` is `continue`. -/
def messageValue (order : MapOrder GaugeValue) (metric : String) : Message → Option Float64
  | .counter name _ total =>
      if sanitizeMetricName name = metric then some (float64OfUInt64 total) else none
  | .gauge metrics => (checkMapForSanitizedMetricName order metrics metric).map GaugeValue.value
  | .timer name start stop =>
      if sanitizeMetricName name = metric then some (float64OfInt64 (stop - start)) else none
  | .unset | .log _ _ | .event _ _ => none

def seriesTags (e : Envelope) : GoMap String :=
  let tags := e.tags.insert "source_id" e.sourceId
  if e.instanceId = "" then tags else tags.insert "instance_id" e.instanceId

variable (q : LogCacheQuerier) (orders : Orders) (selection : Selection)

/-- What the loop over a batch adds for an envelope, if it comes so far. -/
def contribution (e : Envelope) : Option (GoMap String × Point) :=
  if hasLabels e.tags selection.ls then
    (messageValue (orders.metrics e) selection.metric e.message).map fun f =>
      (seriesTags e, ⟨truncate q.interval e.timestamp / 1000000, f⟩)
  else none

def visitEnvelope (builder : SeriesSetBuilder) (e : Envelope) : SeriesSetBuilder :=
  match contribution q orders selection e with
  | none => builder
  | some (tags, s) => add builder tags s

def request (sourceID : String) : ReadRequest where
  sourceId := sourceID
  startTime := q.start - 1000000000
  endTime := q.stop
  limit := 0
  envelopeTypes := [.gauge, .counter, .timer]
  descending := false
  nameFilter := ""

def visitSourceID (builder : SeriesSetBuilder) (sourceID : String) :
    Except String SeriesSetBuilder := do
  let batch ← q.dataReader (request q sourceID)
  return batch.foldl (visitEnvelope q orders selection) builder

def select (ll : List Matcher) : Except String (List ConcreteSeries) :=
  let selection := selectMatchers ll
  let sourceIDs := (orders.sourceIDs.visit selection.sourceIDs.entries).map (·.1)
  if sourceIDs = []
    then .error ("Metric '" ++ selection.metric ++ "' does not have a 'source_id' label.")
  else do
    let builder ← sourceIDs.foldlM (visitSourceID q orders selection) ∅
    return buildSeriesSet orders.data orders.tags builder

end querier

section contributions

variable {q : LogCacheQuerier} {orders : Orders} {selection : Selection}

theorem points_foldl_visitEnvelope (batch : List Envelope) (builder : SeriesSetBuilder) :
    (points (batch.foldl (visitEnvelope q orders selection) builder)).Perm
      (points builder ++ (batch.filterMap (contribution q orders selection)).map (·.2)) := by
  induction batch generalizing builder with
  | nil => rw [List.foldl_nil, List.filterMap_nil, List.map_nil, List.append_nil]
  | cons e batch ih =>
      refine (ih _).trans ?_
      cases hsome : contribution q orders selection e with
      | none => rw [visitEnvelope, hsome, List.filterMap_cons_none hsome]
      | some x =>
          rw [visitEnvelope, hsome, List.filterMap_cons_some hsome, List.map_cons, List.append_cons]
          exact (points_add builder x.1 x.2).append_right _

theorem points_foldlM_visitSourceID (batch : String → List Envelope) (sourceIDs : List String)
    (hread : ∀ sourceID ∈ sourceIDs, q.dataReader (request q sourceID) = .ok (batch sourceID))
    (builder : SeriesSetBuilder) :
    ∃ builder', sourceIDs.foldlM (visitSourceID q orders selection) builder = .ok builder' ∧
      (points builder').Perm
        (points builder ++ ((sourceIDs.flatMap batch).filterMap
          (contribution q orders selection)).map (·.2)) := by
  induction sourceIDs generalizing builder with
  | nil =>
      refine ⟨builder, rfl, ?_⟩
      rw [List.flatMap_nil, List.filterMap_nil, List.map_nil, List.append_nil]
  | cons sourceID sourceIDs ih =>
      obtain ⟨hhead, htail⟩ := List.forall_mem_cons.mp hread
      obtain ⟨builder', hfold, hperm⟩ :=
        ih htail ((batch sourceID).foldl (visitEnvelope q orders selection) builder)
      refine ⟨builder', ?_, hperm.trans ?_⟩
      · rw [List.foldlM_cons, visitSourceID, hhead]
        exact hfold
      · rw [List.flatMap_cons, List.filterMap_append, List.map_append, ← List.append_assoc]
        exact (points_foldl_visitEnvelope _ _).append_right _

theorem select_points (ll : List Matcher) (batch : String → List Envelope)
    (hne : (selectMatchers ll).sourceIDs.entries ≠ [])
    (hread : ∀ sourceID ∈ (selectMatchers ll).sourceIDs,
      q.dataReader (request q sourceID) = .ok (batch sourceID)) :
    ∃ set, select q orders ll = .ok set ∧
      (set.flatMap (·.points)).Perm ((((selectMatchers ll).sourceIDs.entries.flatMap fun p =>
        batch p.1).filterMap
        (contribution q orders (selectMatchers ll))).map (·.2)) := by
  have hvisit := orders.sourceIDs.perm (selectMatchers ll).sourceIDs.entries
  have hmem : ∀ sourceID ∈ (orders.sourceIDs.visit (selectMatchers ll).sourceIDs.entries).map (·.1),
      q.dataReader (request q sourceID) = .ok (batch sourceID) := by
    intro sourceID hsourceID
    exact hread sourceID (AList.mem_keys.mpr ((hvisit.map (·.1)).mem_iff.mp hsourceID))
  obtain ⟨builder, hfold, hperm⟩ := points_foldlM_visitSourceID batch _ hmem ∅
  refine ⟨buildSeriesSet orders.data orders.tags builder, ?_, ?_⟩
  · have hvisited : (orders.sourceIDs.visit (selectMatchers ll).sourceIDs.entries).map
        (·.1) ≠ [] := by
      intro hnil
      rw [List.map_eq_nil_iff] at hnil
      rw [hnil] at hvisit
      exact hne hvisit.nil_eq.symm
    rw [select, if_neg hvisited, hfold]
    rfl
  · refine ((points_buildSeriesSet _ _ _).trans hperm).trans ?_
    rw [List.flatMap_map]
    exact ((hvisit.flatMap_right _).filterMap _).map _

end contributions

end LogCache.Querier
