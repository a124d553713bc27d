import LogCache.JsonText
import LogCache.MapOrders

namespace LogCache.Marshaler

open Envelopes MapOrders Runs JsonText

section results

variable (F : Type)

/-- A point of a series; `F` are the values of a double. -/
structure Point where
  time : String
  value : F

structure Scalar where
  time : String
  value : F

structure Sample where
  metric : GoMap String
  point : Option (Point F)

structure Series where
  metric : GoMap String
  points : List (Point F)

structure Vector where
  samples : List (Sample F)

structure Matrix where
  series : List (Series F)

inductive InstantResult
  | scalar (scalar : Scalar F)
  | vector (vector : Vector F)
  | matrix (matrix : Matrix F)

structure InstantQueryResult where
  result : Option (InstantResult F)

structure RangeQueryResult where
  result : Option (Matrix F)

structure Floats where
  zero : F
  parseFloat : String → Except String F
  /-- As short as possible. -/
  formatFloat : F → String
  /-- With three decimals. -/
  formatMillis : F → String

end results

/-- What stands in JSON for a result. The result data is a document of its own,
embedded as it is. -/
structure ResultData (T : Type) where
  resultType : String
  result : T

structure QueryResult (T : Type) where
  status : String
  data : ResultData T
  errorType : String
  error : String

variable {F T : Type} (codec : Codec T) (floats : Floats F) (order : MapOrder String)

section assemble

def assemblePoint (time : String) (value : F) : Except String (List Json) :=
  match floats.parseFloat time with
  | .error err => .error ("couldn't parse float " ++ time ++ ": " ++ err)
  | .ok t => .ok [.num (floats.formatMillis t), .str (floats.formatFloat value)]

def metricJson (metric : GoMap String) : Json :=
  .obj ((order.visit metric).map fun p => (p.1, .str p.2))

def assembleScalarResultData (v : Scalar F) : Except String (ResultData T) := do
  let point ← assemblePoint floats v.time v.value
  let data ← codec.marshal (.arr point)
  return ⟨"scalar", data⟩

def assembleSample (s : Sample F) : Except String Json := do
  let point ← assemblePoint floats ((s.point.map Point.time).getD "")
      ((s.point.map Point.value).getD floats.zero)
  return .obj [("metric", metricJson order s.metric), ("value", .arr point)]

def assembleVectorResultData (v : Vector F) : Except String (ResultData T) := do
  let samples ← v.samples.mapM (assembleSample floats order)
  let data ← codec.marshal (.arr samples)
  return ⟨"vector", data⟩

/-- A nil slice, as for a series without points, is `null`. -/
def assembleSeries (s : Series F) : Except String Json := do
  let values ← s.points.mapM fun p => assemblePoint floats p.time p.value
  let values := if values = [] then .null else .arr (values.map .arr)
  return .obj [("metric", metricJson order s.metric), ("values", values)]

def assembleMatrixResultData (v : Matrix F) : Except String (ResultData T) := do
  let result ← v.series.mapM (assembleSeries floats order)
  let data ← codec.marshal (.arr result)
  return ⟨"matrix", data⟩

def assembleInstantQueryResult (v : InstantQueryResult F) : Except String (QueryResult T) := do
  let data ←
    match v.result with
    | some (.scalar scalar) => assembleScalarResultData codec floats scalar
    | some (.vector vector) => assembleVectorResultData codec floats order vector
    | some (.matrix matrix) => assembleMatrixResultData codec floats order matrix
    | none => .ok ⟨"", codec.empty⟩
  return ⟨"success", data, "", ""⟩

def assembleRangeQueryResult (v : RangeQueryResult F) : Except String (QueryResult T) := do
  let data ←
    match v.result with
    | some matrix => assembleMatrixResultData codec floats order matrix
    | none => .ok ⟨"", codec.empty⟩
  return ⟨"success", data, "", ""⟩

def omitEmpty (name text : String) : List (String × Json) :=
  if text = "" then [] else [(name, .str text)]

def queryResultJson (q : QueryResult T) : Except String Json := do
  let result ←
    if codec.isEmpty q.data.result then .ok []
    else (fun j => [("result", j)]) <$> codec.decode q.data.result
  return .obj ([("status", .str q.status), ("data",
    .obj (("resultType", .str q.data.resultType) :: result))] ++
    omitEmpty "errorType" q.errorType ++ omitEmpty "error" q.error)

/-- `json.Marshal` of a query result and a new line, which is what an encoder
of `encoding/json` writes too. -/
def writeQueryResult (q : QueryResult T) : Except String T := do
  let j ← queryResultJson codec q
  let bytes ← codec.marshal j
  return codec.append bytes codec.newline

def marshalInstant (v : InstantQueryResult F) : Except String T :=
  assembleInstantQueryResult codec floats order v >>= writeQueryResult codec

def marshalRange (v : RangeQueryResult F) : Except String T :=
  assembleRangeQueryResult codec floats order v >>= writeQueryResult codec

def encodeInstant (v : InstantQueryResult F) : Except String T :=
  assembleInstantQueryResult codec floats order v >>= writeQueryResult codec

def encodeRange (v : RangeQueryResult F) : Except String T :=
  assembleRangeQueryResult codec floats order v >>= writeQueryResult codec

end assemble

section disassemble

/-- What `encoding/json` makes of a value that is read into an interface. -/
inductive Interface (F : Type)
  | nil
  | bool
  | float64 (x : F)
  | string (s : String)
  | slice
  | map

def Interface.type : Interface F → String
  | .nil => "<nil>"
  | .bool => "bool"
  | .float64 _ => "float64"
  | .string _ => "string"
  | .slice => "[]interface \x7b\x7d"
  | .map => "map[string]interface \x7b\x7d"

def readInterface : Json → Except String (Interface F)
  | .null => .ok .nil
  | .bool _ => .ok .bool
  | .num text => .float64 <$> floats.parseFloat text
  | .str s => .ok (.string s)
  | .arr _ => .ok .slice
  | .obj _ => .ok .map

def readMap : Json → Except String (GoMap String)
  | .null => .ok ∅
  | .obj fields => do
      let entries ← fields.mapM fun f => do
        let value ← readString f.2
        return (⟨f.1, value⟩ : Σ _ : String, String)
      return insertAll ∅ entries
  | _ => .error typeError

def disassemblePoint (point : List (Interface F)) : Except String (String × F) :=
  match point with
  | [.float64 t, .string v] =>
      match floats.parseFloat v with
      | .error err => .error ("failed to parse value: " ++ err.quote)
      | .ok decodedValue => .ok (floats.formatMillis t, decodedValue)
  | [.float64 _, v] => .error ("invalid type of value, got " ++ v.type ++ ", expected string")
  | [t, _] => .error ("invalid type of point timestamp, got " ++ t.type ++ ", expected number")
  | point => .error ("invalid length of point, got " ++ toString point.length ++ ", expected 2")

def readEntry {α : Type} (name : String) (read : Json → Except String α) :
    Json → Except String (GoMap String × α) :=
  readObject fun field => do
    let metric ← readMap ((field "metric").getD .null)
    let values ← read ((field name).getD .null)
    return (metric, values)

def unmarshalScalarResultData (data : T) : Except String (Scalar F) := do
  let j ← codec.decode data
  let point ← readList (readInterface floats) j
  let (time, value) ← disassemblePoint floats point
  return ⟨time, value⟩

def disassembleSample (sample : GoMap String × List (Interface F)) : Except String (Sample F) := do
  let (time, value) ← disassemblePoint floats sample.2
  return ⟨sample.1, some ⟨time, value⟩⟩

def unmarshalVectorResultData (data : T) : Except String (Vector F) := do
  let j ← codec.decode data
  let samples ← readList (readEntry "value" (readList (readInterface floats))) j
  let resultSamples ← samples.mapM (disassembleSample floats)
  return ⟨resultSamples⟩

def disassembleSeries (series : GoMap String × List (List (Interface F))) :
    Except String (Series F) := do
  let points ← series.2.mapM fun point => do
    let (time, value) ← disassemblePoint floats point
    return (⟨time, value⟩ : Point F)
  return ⟨series.1, points⟩

def unmarshalMatrixResultData (data : T) : Except String (Matrix F) := do
  let j ← codec.decode data
  let values ← readList (readEntry "values" (readList (readList (readInterface floats)))) j
  let serieses ← values.mapM (disassembleSeries floats)
  return ⟨serieses⟩

def disassembleInstantQueryResult (q : QueryResult T) : Except String (InstantQueryResult F) :=
  if q.data.resultType = "scalar" then
    (fun r => ⟨some (.scalar r)⟩) <$> unmarshalScalarResultData codec floats q.data.result
  else if q.data.resultType = "vector" then
    (fun r => ⟨some (.vector r)⟩) <$> unmarshalVectorResultData codec floats q.data.result
  else if q.data.resultType = "matrix" then
    (fun r => ⟨some (.matrix r)⟩) <$> unmarshalMatrixResultData codec floats q.data.result
  else .error ("unknown instant query resultType '" ++ q.data.resultType ++ "'")

def disassembleRangeQueryResult (q : QueryResult T) : Except String (RangeQueryResult F) :=
  if q.data.resultType = "matrix" then
    (fun r => ⟨some r⟩) <$> unmarshalMatrixResultData codec floats q.data.result
  else .error ("unknown range query resultType '" ++ q.data.resultType ++ "'")

/-- A raw message is what was written for its value, or empty if there is
none. -/
def readResultData : Json → Except String (ResultData T) :=
  readObject fun field => do
    let resultType ← readString ((field "resultType").getD .null)
    return ⟨resultType, ((field "result").map codec.encode).getD codec.empty⟩

def readQueryResult : Json → Except String (QueryResult T) :=
  readObject fun field => do
    let status ← readString ((field "status").getD .null)
    let data ← readResultData codec ((field "data").getD .null)
    let errorType ← readString ((field "errorType").getD .null)
    let error ← readString ((field "error").getD .null)
    return ⟨status, data, errorType, error⟩

def unmarshalInstant (data : T) : Except String (InstantQueryResult F) :=
  codec.decode data >>= fun j =>
    readQueryResult codec j >>= disassembleInstantQueryResult codec floats

def unmarshalRange (data : T) : Except String (RangeQueryResult F) :=
  codec.decode data >>= fun j =>
    readQueryResult codec j >>= disassembleRangeQueryResult codec floats

def decodeInstant (stream : T) : Except String (InstantQueryResult F) :=
  codec.decodeFirst stream >>= fun j =>
    readQueryResult codec j >>= disassembleInstantQueryResult codec floats

def decodeRange (stream : T) : Except String (RangeQueryResult F) :=
  codec.decodeFirst stream >>= fun j =>
    readQueryResult codec j >>= disassembleRangeQueryResult codec floats

end disassemble

end LogCache.Marshaler
