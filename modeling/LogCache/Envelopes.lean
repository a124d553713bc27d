import Mathlib.Data.Finmap
import Mathlib.Order.Defs.LinearOrder

namespace LogCache.Envelopes

instance instLinearOrderInt64 : LinearOrder Int64 where
  le_refl := Int64.le_refl
  le_trans _ _ _ := Int64.le_trans
  lt_iff_le_not_ge a b := by
    rw [Int64.not_le]
    exact ⟨fun h => ⟨Int64.le_of_lt h, h⟩, fun h => h.2⟩
  le_antisymm _ _ := Int64.le_antisymm
  le_total := Int64.le_total
  toDecidableLE := inferInstance
  toDecidableLT := inferInstance
  min_def _ _ := rfl
  max_def _ _ := rfl

def bytesOf (text : String) : List UInt8 := text.toList.map fun c => UInt8.ofNat c.toNat

abbrev GoMap (β : Type) := Finmap fun _ : String => β

def GoMap.filter {β : Type} (p : String → Bool) (m : GoMap β) : GoMap β :=
  ⟨m.entries.filter (fun x => p x.1), by
    obtain ⟨s, hs⟩ := m
    induction s using Quotient.inductionOn with
    | h l => exact List.NodupKeys.sublist List.filter_sublist hs⟩

structure Float64 where
  bits : UInt64
deriving DecidableEq

inductive Value
  | unset
  | text (text : String)
  | integer (integer : Int64)
  | decimal (decimal : Float64)
deriving DecidableEq

structure GaugeValue where
  unit : String
  value : Float64
deriving DecidableEq

inductive LogType
  | out
  | err
deriving DecidableEq

inductive Message
  | unset
  | log (payload : List UInt8) (type : LogType)
  | counter (name : String) (delta total : UInt64)
  | gauge (metrics : GoMap GaugeValue)
  | timer (name : String) (start stop : Int64)
  | event (title body : String)
deriving DecidableEq

structure Envelope where
  timestamp : Int64
  sourceId : String
  instanceId : String
  deprecatedTags : GoMap Value
  tags : GoMap String
  message : Message
deriving DecidableEq

def bare (timestamp : Int64) : Envelope := ⟨timestamp, "", "", ∅, ∅, .unset⟩

/-- An open enumeration: a number without a name is a value of the type. -/
inductive EnvelopeType
  | any
  | log
  | counter
  | gauge
  | timer
  | event
  | unrecognized (number : Int32)
deriving DecidableEq

inductive Panic
  | nilDereference
  | heapEmpty
  | unknownType
  | interfaceConversion
  | indexOutOfRange
deriving DecidableEq

/-- Why a step of a system of concurrent calls does not go through: there is
nothing to step, or the step panics. -/
inductive Stop
  | disabled
  | panic (p : Panic)
deriving DecidableEq

end LogCache.Envelopes
