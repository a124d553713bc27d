import LogCache.MapOrders
import Mathlib.Data.List.DropRight

namespace LogCache.Syslog

open Envelopes MapOrders

section strconv

inductive NumError
  | invalidSyntax
  | outOfRange

def NumError.text : NumError → String
  | .invalidSyntax => "invalid syntax"
  | .outOfRange => "value out of range"

/-- The loop of `strconv.ParseUint` for base 10 and 64 bits. A digit that
overflows ends it, whatever follows. -/
def parseDigits (n : Nat) : List Char → Except NumError Nat
  | [] => .ok n
  | c :: cs =>
      if c.isDigit then
        let n := 10 * n + (c.toNat - '0'.toNat)
        if n < 2 ^ 64 then parseDigits n cs else .error .outOfRange
      else .error .invalidSyntax

def parseUint (s : String) : Except NumError UInt64 :=
  if s = "" then .error .invalidSyntax else (parseDigits 0 s.toList).map UInt64.ofNat

def parseSign : List Char → Bool × List Char
  | '-' :: cs => (true, cs)
  | '+' :: cs => (false, cs)
  | cs => (false, cs)

def parseInt (s : String) : Except NumError Int64 :=
  match parseSign s.toList with
  | (_, []) => .error .invalidSyntax
  | (negative, cs) =>
      match parseDigits 0 cs with
      | .error err => .error err
      | .ok n =>
          if negative then if n ≤ 2 ^ 63 then .ok (Int64.ofInt (-n)) else .error .outOfRange
          else if n < 2 ^ 63 then .ok (Int64.ofInt n) else .error .outOfRange

/-- The rest of the standard library: `strconv.ParseFloat` with the text of its
error, `strconv.Quote`, and the `%#v` of a map. -/
structure Library where
  parseFloat : String → Except String Float64
  quote : String → String
  goSyntax : GoMap String → String

def plainLibrary : Library where
  parseFloat _ := .error "strconv.ParseFloat: parsing \"\": invalid syntax"
  quote s := s
  goSyntax _ := "map[string]string\x7b\x7d"

def numError (lib : Library) (func num : String) (err : NumError) : String :=
  "strconv." ++ func ++ ": parsing " ++ lib.quote num ++ ": " ++ err.text

end strconv

section strings

def spaces : List (List UInt8) :=
  [[0x20], [0x09], [0x0A], [0x0B], [0x0C], [0x0D], [0xC2, 0x85], [0xC2, 0xA0],
    [0xE1, 0x9A, 0x80]] ++
    (List.range 11).map (fun i => [0xE2, 0x80, 0x80 + i.toUInt8]) ++
    [[0xE2, 0x80, 0xA8], [0xE2, 0x80, 0xA9], [0xE2, 0x80, 0xAF], [0xE2, 0x81, 0x9F],
      [0xE3, 0x80, 0x80]]

/-- Drop texts of `cutset` from the front; the fuel is the length. -/
def trimLeft (cutset : List (List UInt8)) : Nat → List UInt8 → List UInt8
  | 0, bytes => bytes
  | fuel + 1, bytes =>
      match cutset.find? (List.isPrefixOf · bytes) with
      | none => bytes
      | some space => trimLeft cutset fuel (bytes.drop space.length)

def trimSpace (bytes : List UInt8) : List UInt8 :=
  let bytes := trimLeft spaces bytes.length bytes
  (trimLeft (spaces.map List.reverse) bytes.length bytes.reverse).reverse

def trimNewline (bytes : List UInt8) : List UInt8 :=
  if bytes.getLast? = some 0x0A then bytes.dropLast else bytes

def startsWith (s start : String) : Bool := start.toList.isPrefixOf s.toList

def instanceIdFromPID (pid : String) : String :=
  let isBracket := fun c => c == '[' || c == ']'
  String.ofList ((((pid.toList.dropWhile isBracket).rdropWhile isBracket).splitOn '/').getLastD [])

end strings

section messages

/-- The fields of an `rfc5424.SyslogMessage` that the server reads. The
timestamp is in nanoseconds, the message any bytes. -/
structure SyslogMessage where
  priority : Option UInt8
  version : Nat
  timestamp : Option Int
  appname : Option String
  procID : Option String
  structuredData : Option (GoMap (GoMap String))
  message : Option (List UInt8)

/-- A `syslog.Result`; `none` is a message of another type. -/
structure Result where
  message : Option SyslogMessage
  error : Option String

def Emitted (res : Result) : Prop :=
  res.error ≠ none ∨ ∃ msg, res.error = none ∧ res.message = some msg ∧ msg.priority ≠ none ∧
    0 < msg.version

structure Server where
  trimMessageWhitespace : Bool
  envelopes : List Envelope
  ingress : Nat
  invalidIngress : Nat

structure Orders where
  structuredData : MapOrder (GoMap String)
  tags : MapOrder String

def param (msg : GoMap String) (key : String) : String := (msg.lookup key).getD ""

variable (lib : Library)

def convertTimer (env : Envelope) (msg : GoMap String) : Except String Envelope := do
  let start ← (parseInt (param msg "start")).mapError (numError lib "ParseInt" (param msg "start"))
  let stop ← (parseInt (param msg "stop")).mapError (numError lib "ParseInt" (param msg "stop"))
  return { env with message := .timer (param msg "name") start stop }

def convertEvent (env : Envelope) (msg : GoMap String) : Except String Envelope :=
  .ok { env with message := .event (param msg "title") (param msg "body") }

def convertCounter (env : Envelope) (msg : GoMap String) : Except String Envelope := do
  let delta ← (parseUint (param msg "delta")).mapError
      (numError lib "ParseUint" (param msg "delta"))
  let total ← (parseUint (param msg "total")).mapError
      (numError lib "ParseUint" (param msg "total"))
  return { env with message := .counter (param msg "name") delta total }

def convertGauge (env : Envelope) (msg : GoMap String) : Except String Envelope :=
  match msg.lookup "unit" with
  | none => .error "expected unit not found in gauge"
  | some unit => do
      let value ← lib.parseFloat (param msg "value")
      return { env with message := .gauge ((∅ : GoMap GaugeValue).insert (param msg "name")
                          ⟨unit, value⟩) }

def convertTags (order : MapOrder String) (env : Envelope) (msg : GoMap String) : Envelope :=
  { env with tags := insertAll env.tags (order.visit msg) }

def convertStructuredData (order : MapOrder String) (env : Envelope) (envType : String)
    (payload : GoMap String) :
    Except String Envelope :=
  if startsWith envType "counter" then convertCounter lib env payload
  else if startsWith envType "gauge" then convertGauge lib env payload
  else if startsWith envType "event" then convertEvent env payload
  else if startsWith envType "timer" then convertTimer lib env payload
  else if startsWith envType "tags" then .ok (convertTags order env payload)
  else .error ("unknown envelope type for structured data: [" ++ envType ++ "=\"" ++
    lib.goSyntax payload ++ "\"]")

def typeFromPriority (priority : UInt8) : LogType := if priority = 11 then .err else .out

namespace Server

variable (s : Server) (orders : Orders)

/-- The message has been checked for nil; the priority has not. -/
def convertMessage (env : Envelope) (msg : SyslogMessage) (message : List UInt8) :
    Except Panic Envelope :=
  let payload := if s.trimMessageWhitespace then trimSpace message else trimNewline message
  match msg.priority with
  | none => .error .nilDereference
  | some priority => .ok { env with message := .log payload (typeFromPriority priority) }

def convertElements (env : Envelope) (elements : List (Σ _ : String, GoMap String)) :
    Except String Envelope :=
  elements.foldlM (fun env p => convertStructuredData lib orders.tags env p.1 p.2) env

def finishEnvelope (env : Envelope) (msg : SyslogMessage) :
    Except Panic (Except String Envelope) := do
  let env ←
    match env.message, msg.message with
    | .unset, some message => s.convertMessage env msg message
    | _, _ => .ok env
  return if env.message = .unset then .error "missing message data in syslog message" else .ok env

/-- An envelope or an error; a nil pointer, among them a missing timestamp, is
a panic. -/
def convertToEnvelope (msg : Option SyslogMessage) : Except Panic (Except String Envelope) :=
  match msg with
  | none => .error .nilDereference
  | some msg =>
      match msg.procID with
      | none => .ok (.error "missing proc ID in syslog message")
      | some procID =>
          match msg.appname with
          | none => .ok (.error "missing app name in syslog message")
          | some sourceID =>
              match msg.timestamp with
              | none => .error .nilDereference
              | some timestamp =>
                  let env : Envelope :=
                    ⟨Int64.ofInt timestamp, sourceID, instanceIdFromPID procID, ∅, ∅, .unset⟩
                  match convertElements lib orders env
                    (orders.structuredData.visit (msg.structuredData.getD ∅)) with
                  | .error err => .ok (.error err)
                  | .ok env => s.finishEnvelope env msg

/-- A message of another type is counted, but then converted all the same. -/
def parseListener (res : Result) : Except Panic Server :=
  match res.error with
  | some _ => .ok { s with invalidIngress := s.invalidIngress + 1 }
  | none =>
      let s := if res.message.isNone then { s with invalidIngress := s.invalidIngress + 1 } else s
      match s.convertToEnvelope lib orders res.message with
      | .error p => .error p
      | .ok (.error _) => .ok { s with invalidIngress := s.invalidIngress + 1 }
      | .ok (.ok env) => .ok { s with envelopes := s.envelopes ++ [env], ingress := s.ingress + 1 }

end Server

end messages

end LogCache.Syslog
