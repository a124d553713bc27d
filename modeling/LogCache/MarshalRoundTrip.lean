import LogCache.Marshaler

namespace LogCache.MarshalRoundTrip

open Envelopes MapOrders Runs JsonText Marshaler

variable {F T : Type} {codec : Codec T} {floats : Floats F} {order : MapOrder String}

section points

/-- The time is written with three decimals, and so that it is written again
when it has been parsed. -/
def Exact (floats : Floats F) (time : String) : Prop :=
  ThreeDecimals time ∧ ∃ t, floats.parseFloat time = .ok t ∧ floats.formatMillis t = time

def Inverts (floats : Floats F) : Prop :=
  ∀ value, floats.parseFloat (floats.formatFloat value) = .ok value

def pointJson (floats : Floats F) (p : Point F) : Json :=
  .arr [.num p.time, .str (floats.formatFloat p.value)]

def interfaces (floats : Floats F) (p : Point F) : List (Interface F) :=
  [.float64 ((floats.parseFloat p.time).toOption.getD floats.zero),
    .string (floats.formatFloat p.value)]

variable {p : Point F}

theorem assemblePoint_of_exact (hp : Exact floats p.time) :
    assemblePoint floats p.time p.value = .ok [.num p.time, .str (floats.formatFloat p.value)] := by
  obtain ⟨_, t, hparse, hformat⟩ := hp
  rw [assemblePoint, hparse]
  simp only [hformat]

theorem valid_pointJson (hp : Exact floats p.time) : (pointJson floats p).valid = true := by
  simp [pointJson, Json.valid, validItems, validNumber_of_threeDecimals hp.1]

theorem readList_pointJson (hp : Exact floats p.time) :
    readList (readInterface floats) (pointJson floats p) = .ok (interfaces floats p) := by
  obtain ⟨_, t, hparse, _⟩ := hp
  rw [interfaces, hparse]
  change ([Json.num p.time, .str (floats.formatFloat p.value)]).mapM (readInterface floats) = _
  rw [List.mapM_cons, List.mapM_cons, List.mapM_nil]
  simp only [readInterface, hparse]
  rfl

theorem disassemblePoint_interfaces (hfloats : Inverts floats) (hp : Exact floats p.time) :
    disassemblePoint floats (interfaces floats p) = .ok (p.time, p.value) := by
  obtain ⟨_, t, hparse, hformat⟩ := hp
  rw [interfaces, hparse, disassemblePoint, hfloats p.value]
  simp only [Except.toOption, Option.getD_some, hformat]

end points

section metrics

theorem valid_metricJson (metric : GoMap String) : (metricJson order metric).valid = true := by
  rw [metricJson, Json.valid, validFields_iff]
  intro field hfield
  obtain ⟨p, _, rfl⟩ := List.mem_map.mp hfield
  rfl

theorem readMap_metricJson (metric : GoMap String) :
    readMap (metricJson order metric) = .ok metric := by
  have hentries : ((order.visit metric).map fun p => (p.1, Json.str p.2)).mapM (fun f => do
      let value ← readString f.2
      return (⟨f.1, value⟩ : Σ _ : String, String)) = .ok ((order.visit metric).map id) := by
    rw [List.mapM_map]
    exact mapM_ok fun p _ => rfl
  rw [metricJson, readMap, hentries, List.map_id]
  refine congrArg Except.ok (Finmap.ext_lookup fun name => ?_)
  rw [lookup_insertAll_visit, Finmap.lookup_empty, Option.or_none]

theorem readEntry_obj {α : Type} {name : String} (hname : name ≠ "metric")
    {read : Json → Except String α} {j : Json} {a : α} (hread : read j = .ok a)
    (metric : GoMap String) :
    readEntry name read (.obj [("metric", metricJson order metric), (name, j)]) =
      .ok (metric, a) := by
  have hmetric : field [("metric", metricJson order metric), (name, j)] "metric" =
      some (metricJson order metric) := by
    simp [field, hname]
  have hvalue : field [("metric", metricJson order metric), (name, j)] name = some j := by
    simp [field]
  rw [readEntry, readObject, hmetric, hvalue, Option.getD_some, Option.getD_some,
    readMap_metricJson, hread]
  rfl

end metrics

section samples

def SampleExact (floats : Floats F) (s : Sample F) : Prop :=
  ∃ p, s.point = some p ∧ Exact floats p.time

def pointOf (floats : Floats F) (s : Sample F) : Point F := s.point.getD ⟨"", floats.zero⟩

def sampleJson (floats : Floats F) (order : MapOrder String) (s : Sample F) : Json :=
  .obj [("metric", metricJson order s.metric), ("value", pointJson floats (pointOf floats s))]

variable {s : Sample F}

theorem assembleSample_of_exact (hs : SampleExact floats s) :
    assembleSample floats order s = .ok (sampleJson floats order s) := by
  obtain ⟨p, hpoint, hp⟩ := hs
  rw [assembleSample, sampleJson, pointOf, hpoint]
  simp only [Option.map_some, Option.getD_some, assemblePoint_of_exact hp]
  rfl

theorem valid_sampleJson (hs : SampleExact floats s) :
    (sampleJson floats order s).valid = true := by
  obtain ⟨p, hpoint, hp⟩ := hs
  simp [sampleJson, pointOf, hpoint, Json.valid, validFields, valid_metricJson, valid_pointJson hp]

theorem readEntry_sampleJson (hs : SampleExact floats s) :
    readEntry "value" (readList (readInterface floats)) (sampleJson floats order s) =
      .ok (s.metric, interfaces floats (pointOf floats s)) := by
  obtain ⟨p, hpoint, hp⟩ := hs
  have hpoint' : pointOf floats s = p := by rw [pointOf, hpoint]; rfl
  rw [sampleJson, hpoint']
  exact readEntry_obj (by decide) (readList_pointJson hp) s.metric

theorem disassembleSample_interfaces (hfloats : Inverts floats) (hs : SampleExact floats s) :
    disassembleSample floats (s.metric, interfaces floats (pointOf floats s)) = .ok s := by
  obtain ⟨p, hpoint, hp⟩ := hs
  have hpoint' : pointOf floats s = p := by rw [pointOf, hpoint]; rfl
  rw [disassembleSample, hpoint', disassemblePoint_interfaces hfloats hp]
  obtain ⟨metric, point⟩ := s
  simp only at hpoint
  rw [hpoint]
  rfl

end samples

section series

def SeriesExact (floats : Floats F) (s : Series F) : Prop := ∀ p ∈ s.points, Exact floats p.time

def valuesJson (floats : Floats F) (points : List (Point F)) : Json :=
  if points = [] then .null else .arr (points.map (pointJson floats))

def seriesJson (floats : Floats F) (order : MapOrder String) (s : Series F) : Json :=
  .obj [("metric", metricJson order s.metric), ("values", valuesJson floats s.points)]

variable {s : Series F}

theorem assembleSeries_of_exact (hs : SeriesExact floats s) :
    assembleSeries floats order s = .ok (seriesJson floats order s) := by
  have hpoints : s.points.mapM (fun p => assemblePoint floats p.time p.value) =
      .ok (s.points.map fun p => [.num p.time, .str (floats.formatFloat p.value)]) :=
    mapM_ok fun p hp => assemblePoint_of_exact (hs p hp)
  rw [assembleSeries, hpoints, seriesJson, valuesJson]
  change Except.ok _ = Except.ok _
  cases s.points with
  | nil => rfl
  | cons p points => simp [pointJson]

theorem valid_valuesJson {points : List (Point F)} (h : ∀ p ∈ points, Exact floats p.time) :
    (valuesJson floats points).valid = true := by
  rw [valuesJson]
  split_ifs
  · rfl
  · rw [Json.valid, validItems_iff]
    intro item hitem
    obtain ⟨p, hp, rfl⟩ := List.mem_map.mp hitem
    exact valid_pointJson (h p hp)

theorem valid_seriesJson (hs : SeriesExact floats s) :
    (seriesJson floats order s).valid = true := by
  simp [seriesJson, Json.valid, validFields, valid_metricJson, valid_valuesJson hs]

theorem readList_valuesJson {points : List (Point F)} (h : ∀ p ∈ points, Exact floats p.time) :
    readList (readList (readInterface floats)) (valuesJson floats points) =
      .ok (points.map (interfaces floats)) := by
  rw [valuesJson]
  split_ifs with hnil
  · rw [hnil]
    rfl
  · exact readList_arr fun p hp => readList_pointJson (h p hp)

theorem readEntry_seriesJson (hs : SeriesExact floats s) :
    readEntry "values" (readList (readList (readInterface floats))) (seriesJson floats order s) =
      .ok (s.metric, s.points.map (interfaces floats)) :=
  readEntry_obj (by decide) (readList_valuesJson hs) s.metric

theorem disassembleSeries_interfaces (hfloats : Inverts floats) (hs : SeriesExact floats s) :
    disassembleSeries floats (s.metric, s.points.map (interfaces floats)) = .ok s := by
  rw [disassembleSeries, List.mapM_map, mapM_ok, List.map_id]
  · rfl
  · intro p hp
    simp only [Function.comp_apply, disassemblePoint_interfaces hfloats (hs p hp)]
    rfl

end series

section data

variable (hcodec : codec.Lawful) (hfloats : Inverts floats)
include hcodec hfloats

theorem scalar_round_trip {v : Scalar F} (hv : Exact floats v.time) :
    ∃ j, j.valid = true ∧ assembleScalarResultData codec floats v = .ok ⟨"scalar", codec.encode j⟩ ∧
      unmarshalScalarResultData codec floats (codec.encode j) = .ok v := by
  have hp : Exact floats (⟨v.time, v.value⟩ : Point F).time := hv
  have hvalid := valid_pointJson hp
  have hmarshal := codec.marshal_of_valid hvalid
  refine ⟨_, hvalid, ?_, ?_⟩
  · have hpoint := assemblePoint_of_exact hp
    rw [pointJson] at hmarshal
    rw [assembleScalarResultData]
    simp only [hpoint, hmarshal, bind, Except.bind]
    rfl
  · rw [unmarshalScalarResultData]
    simp only [hcodec.decode_encode _ hvalid, readList_pointJson hp,
      disassemblePoint_interfaces hfloats hp, bind, Except.bind]
    rfl

theorem vector_round_trip (order : MapOrder String) {v : Vector F}
    (hv : ∀ s ∈ v.samples, SampleExact floats s) :
    ∃ j, j.valid = true ∧ assembleVectorResultData codec floats order v =
      .ok ⟨"vector", codec.encode j⟩ ∧
      unmarshalVectorResultData codec floats (codec.encode j) = .ok v := by
  obtain ⟨hvalid, hread, hconvert⟩ :=
    list_round_trip (fun s hs => @valid_sampleJson _ _ order _ (hv s hs))
    (fun s hs => readEntry_sampleJson (hv s hs))
    (fun s hs => disassembleSample_interfaces hfloats (hv s hs))
  have hwrite : v.samples.mapM (assembleSample floats order) =
      .ok (v.samples.map (sampleJson floats order)) :=
    mapM_ok fun s hs => assembleSample_of_exact (hv s hs)
  refine ⟨_, hvalid, ?_, ?_⟩
  · rw [assembleVectorResultData]
    simp only [hwrite, codec.marshal_of_valid hvalid, bind, Except.bind]
    rfl
  · rw [unmarshalVectorResultData]
    simp only [hcodec.decode_encode _ hvalid, hread, hconvert, bind, Except.bind]
    rfl

theorem matrix_round_trip (order : MapOrder String) {v : Matrix F}
    (hv : ∀ s ∈ v.series, SeriesExact floats s) :
    ∃ j, j.valid = true ∧ assembleMatrixResultData codec floats order v =
      .ok ⟨"matrix", codec.encode j⟩ ∧
      unmarshalMatrixResultData codec floats (codec.encode j) = .ok v := by
  obtain ⟨hvalid, hread, hconvert⟩ :=
    list_round_trip (fun s hs => @valid_seriesJson _ _ order _ (hv s hs))
    (fun s hs => readEntry_seriesJson (hv s hs))
    (fun s hs => disassembleSeries_interfaces hfloats (hv s hs))
  have hwrite : v.series.mapM (assembleSeries floats order) =
      .ok (v.series.map (seriesJson floats order)) :=
    mapM_ok fun s hs => assembleSeries_of_exact (hv s hs)
  refine ⟨_, hvalid, ?_, ?_⟩
  · rw [assembleMatrixResultData]
    simp only [hwrite, codec.marshal_of_valid hvalid, bind, Except.bind]
    rfl
  · rw [unmarshalMatrixResultData]
    simp only [hcodec.decode_encode _ hvalid, hread, hconvert, bind, Except.bind]
    rfl

end data

section documents

def success (codec : Codec T) (resultType : String) (j : Json) : QueryResult T :=
  ⟨"success", ⟨resultType, codec.encode j⟩, "", ""⟩

def successJson (resultType : String) (j : Json) : Json :=
  .obj [("status", .str "success"), ("data", .obj [("resultType", .str resultType), ("result", j)])]

theorem valid_successJson (resultType : String) {j : Json} (hj : j.valid = true) :
    (successJson resultType j).valid = true := by
  simp [successJson, Json.valid, validFields, hj]

theorem readQueryResult_successJson (codec : Codec T) (resultType : String) (j : Json) :
    readQueryResult codec (successJson resultType j) = .ok (success codec resultType j) := rfl

variable (hcodec : codec.Lawful)
include hcodec

theorem queryResultJson_success (resultType : String) {j : Json} (hj : j.valid = true) :
    queryResultJson codec (success codec resultType j) = .ok (successJson resultType j) := by
  rw [queryResultJson]
  simp only [success, hcodec.isEmpty_encode j hj, Bool.false_eq_true, if_false,
    hcodec.decode_encode j hj]
  rfl

theorem success_round_trip (resultType : String) {j : Json} (hj : j.valid = true) :
    ∃ line, writeQueryResult codec (success codec resultType j) = .ok line ∧
      codec.decode line = .ok (successJson resultType j) ∧
      ∀ rest, codec.decodeFirst (codec.append line rest) = .ok (successJson resultType j) := by
  have hvalid := valid_successJson resultType hj
  refine ⟨codec.append (codec.encode (successJson resultType j)) codec.newline, ?_,
    hcodec.decode_line _ hvalid, fun rest => hcodec.decodeFirst_line _ rest hvalid⟩
  rw [writeQueryResult]
  simp only [queryResultJson_success hcodec resultType hj, codec.marshal_of_valid hvalid, bind,
    Except.bind]
  rfl

theorem document_round_trip {α : Type} (resultType : String) {j : Json} (hj : j.valid = true)
    {assembled : Except String (QueryResult T)}
    {disassemble : QueryResult T → Except String α} {v : α}
    (hassemble : assembled = .ok (success codec resultType j))
    (hdisassemble : disassemble (success codec resultType j) = .ok v) :
    (∃ bytes, assembled >>= writeQueryResult codec = .ok bytes ∧
      (codec.decode bytes >>= fun j => readQueryResult codec j >>= disassemble) = .ok v) ∧
    ∃ bytes, assembled >>= writeQueryResult codec = .ok bytes ∧
      ∀ rest, (codec.decodeFirst (codec.append bytes rest) >>= fun j =>
        readQueryResult codec j >>= disassemble) =
        .ok v := by
  obtain ⟨line, hline, hdecode, hfirst⟩ := success_round_trip hcodec resultType hj
  have hread : (readQueryResult codec (successJson resultType j) >>= disassemble) = .ok v := by
    rw [readQueryResult_successJson]
    exact hdisassemble
  rw [hassemble]
  refine ⟨⟨line, hline, ?_⟩, line, hline, fun rest => ?_⟩
  · rw [hdecode]
    exact hread
  · rw [hfirst]
    exact hread

end documents

section queries

def InstantExact (floats : Floats F) (v : InstantQueryResult F) : Prop :=
  match v.result with
  | none => False
  | some (.scalar scalar) => Exact floats scalar.time
  | some (.vector vector) => ∀ s ∈ vector.samples, SampleExact floats s
  | some (.matrix matrix) => ∀ s ∈ matrix.series, SeriesExact floats s

def RangeExact (floats : Floats F) (v : RangeQueryResult F) : Prop :=
  ∃ matrix, v.result = some matrix ∧ ∀ s ∈ matrix.series, SeriesExact floats s

variable (hcodec : codec.Lawful) (hfloats : Inverts floats)
include hcodec hfloats

theorem instant_round_trip (order : MapOrder String) {v : InstantQueryResult F}
    (hv : InstantExact floats v) :
    ∃ resultType j, j.valid = true ∧
      assembleInstantQueryResult codec floats order v = .ok (success codec resultType j) ∧
      disassembleInstantQueryResult codec floats (success codec resultType j) = .ok v := by
  obtain ⟨result⟩ := v
  cases result with
  | none => exact absurd hv not_false
  | some result =>
      cases result with
      | scalar scalar =>
          obtain ⟨j, hj, hwrite, hread⟩ := scalar_round_trip hcodec hfloats hv
          refine ⟨"scalar", j, hj, ?_, ?_⟩
          · simp only [assembleInstantQueryResult, hwrite]
            rfl
          · simp only [disassembleInstantQueryResult, success, hread]
            rfl
      | vector vector =>
          obtain ⟨j, hj, hwrite, hread⟩ := vector_round_trip hcodec hfloats order hv
          refine ⟨"vector", j, hj, ?_, ?_⟩
          · simp only [assembleInstantQueryResult, hwrite]
            rfl
          · simp only [disassembleInstantQueryResult, success, hread]
            rfl
      | matrix matrix =>
          obtain ⟨j, hj, hwrite, hread⟩ := matrix_round_trip hcodec hfloats order hv
          refine ⟨"matrix", j, hj, ?_, ?_⟩
          · simp only [assembleInstantQueryResult, hwrite]
            rfl
          · simp only [disassembleInstantQueryResult, success, hread]
            rfl

theorem range_round_trip (order : MapOrder String) {v : RangeQueryResult F}
    (hv : RangeExact floats v) :
    ∃ resultType j, j.valid = true ∧
      assembleRangeQueryResult codec floats order v = .ok (success codec resultType j) ∧
      disassembleRangeQueryResult codec floats (success codec resultType j) = .ok v := by
  obtain ⟨result⟩ := v
  obtain ⟨matrix, rfl, hmatrix⟩ := hv
  obtain ⟨j, hj, hwrite, hread⟩ := matrix_round_trip hcodec hfloats order hmatrix
  refine ⟨"matrix", j, hj, ?_, ?_⟩
  · simp only [assembleRangeQueryResult, hwrite]
    rfl
  · simp only [disassembleRangeQueryResult, success, hread]
    rfl

end queries

/-- Results with a scalar, a vector or a matrix come back from `Unmarshal` as
they were given to `Marshal`, and from a decoder as they were given to an
encoder. A nil list or map is an empty one here. -/
theorem marshal_round_trip {F T : Type} (codec : Codec T) (floats : Floats F)
    (order : MapOrder String) (hcodec : codec.Lawful) (hfloats : Inverts floats) :
    (∀ v : InstantQueryResult F, InstantExact floats v →
      (∃ bytes, marshalInstant codec floats order v = .ok bytes ∧
        unmarshalInstant codec floats bytes = .ok v) ∧
      ∃ bytes, encodeInstant codec floats order v = .ok bytes ∧
        ∀ rest, decodeInstant codec floats (codec.append bytes rest) = .ok v) ∧
    ∀ v : RangeQueryResult F, RangeExact floats v →
      (∃ bytes, marshalRange codec floats order v = .ok bytes ∧
        unmarshalRange codec floats bytes = .ok v) ∧
      ∃ bytes, encodeRange codec floats order v = .ok bytes ∧
        ∀ rest, decodeRange codec floats (codec.append bytes rest) = .ok v := by
  constructor
  · intro v hv
    obtain ⟨resultType, j, hj, hassemble, hdisassemble⟩ :=
      instant_round_trip hcodec hfloats order hv
    exact document_round_trip hcodec resultType hj hassemble hdisassemble
  · intro v hv
    obtain ⟨resultType, j, hj, hassemble, hdisassemble⟩ := range_round_trip hcodec hfloats order hv
    exact document_round_trip hcodec resultType hj hassemble hdisassemble

def lines : Codec (List (Option Json)) where
  encode j := [some j]
  decode
    | [some j] | [some j, none] => .ok j
    | _ => .error "unexpected end of JSON input"
  decodeFirst
    | some j :: _ => .ok j
    | _ => .error "unexpected end of JSON input"
  append := (· ++ ·)
  newline := [none]
  empty := []
  isEmpty := List.isEmpty
  marshalError _ := "invalid character"

theorem lawful_lines : lines.Lawful :=
  ⟨fun _ _ => rfl, fun _ _ => rfl, fun _ _ _ => rfl, fun _ _ => rfl⟩

def texts : Floats String := ⟨"0", .ok, id, id⟩

theorem marshal_round_trip_sample :
    ∃ bytes, marshalInstant lines texts .any
        ⟨some (.vector ⟨[⟨∅, some ⟨"1.000", "2.5"⟩⟩]⟩)⟩ = .ok bytes ∧
      unmarshalInstant lines texts bytes = .ok ⟨some (.vector ⟨[⟨∅, some ⟨"1.000", "2.5"⟩⟩]⟩)⟩ := by
  have hdecimals : ThreeDecimals "1.000" :=
    ⟨[], ['1'], '0', '0', '0', rfl, Or.inl rfl, List.cons_ne_nil _ _, Or.inr rfl,
      List.all_eq_true.mp rfl⟩
  refine ((marshal_round_trip lines texts .any lawful_lines fun _ => rfl).1 _ ?_).1
  intro s hs
  rw [List.mem_singleton.mp hs]
  exact ⟨_, rfl, hdecimals, _, rfl, rfl⟩

end LogCache.MarshalRoundTrip
