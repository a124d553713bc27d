import LogCache.Runs
import Mathlib.Data.List.TakeWhile

namespace LogCache.JsonText

open Runs

section numbers

def validExponent : List Char → Bool
  | [] => true
  | c :: rest =>
      let digits := if rest.head? = some '+' ∨ rest.head? = some '-' then rest.tail else rest
      decide (c = 'e' ∨ c = 'E') && !digits.isEmpty && digits.all Char.isDigit

def validFraction : List Char → Bool
  | '.' :: rest =>
      !(rest.takeWhile Char.isDigit).isEmpty && validExponent (rest.dropWhile Char.isDigit)
  | rest => validExponent rest

def validNumber (text : List Char) : Bool :=
  let unsigned := if text.head? = some '-' then text.tail else text
  let digits := unsigned.takeWhile Char.isDigit
  !digits.isEmpty && decide (digits.head? ≠ some '0' ∨ digits.length = 1) &&
    validFraction (unsigned.dropWhile Char.isDigit)

/-- A number written with three decimals, and no more digits before them than
it needs. -/
def ThreeDecimals (text : String) : Prop :=
  ∃ sign digits a b c, text.toList = sign ++ digits ++ ['.', a, b, c] ∧ (sign = [] ∨ sign = ['-']) ∧
    digits ≠ [] ∧
    (digits.head? ≠ some '0' ∨ digits.length = 1) ∧ (∀ d ∈ digits ++ [a, b, c], d.isDigit = true)

theorem validNumber_of_threeDecimals {text : String} (h : ThreeDecimals text) :
    validNumber text.toList = true := by
  obtain ⟨sign, digits, a, b, c, htext, hsign, hne, hzero, hdigits⟩ := h
  have hall : ∀ d ∈ digits, d.isDigit = true := fun d hd => hdigits d (List.mem_append_left _ hd)
  obtain ⟨ha, hb, hc⟩ : a.isDigit = true ∧ b.isDigit = true ∧ c.isDigit = true := by
    simpa using fun d hd => hdigits d (List.mem_append_right digits hd)
  have hhead : digits.head? ≠ some '-' := by
    intro hhead
    exact absurd (hall '-' (List.mem_of_head? hhead)) (by decide)
  have hunsigned : (if text.toList.head? = some '-' then text.toList.tail else text.toList) =
      digits ++ ['.', a, b, c] := by
    rw [htext]
    rcases hsign with rfl | rfl
    · cases digits with
      | nil => exact absurd rfl hne
      | cons d digits => exact if_neg hhead
    · rfl
  have htake : (digits ++ ['.', a, b, c]).takeWhile Char.isDigit = digits := by
    rw [List.takeWhile_append_of_pos hall]
    simp [show Char.isDigit '.' = false by decide]
  have hdrop : (digits ++ ['.', a, b, c]).dropWhile Char.isDigit = ['.', a, b, c] := by
    rw [List.dropWhile_append_of_pos hall]
    simp [show Char.isDigit '.' = false by decide]
  rw [validNumber, hunsigned]
  simp only [htake, hdrop]
  simp [hne, hzero, validFraction, ha, hb, hc, validExponent]

end numbers

section trees

inductive Json
  | null
  | bool (b : Bool)
  | num (text : String)
  | str (s : String)
  | arr (items : List Json)
  | obj (fields : List (String × Json))

mutual

def Json.valid : Json → Bool
  | .null | .bool _ | .str _ => true
  | .num text => validNumber text.toList
  | .arr items => validItems items
  | .obj fields => validFields fields

def validItems : List Json → Bool
  | [] => true
  | item :: items => item.valid && validItems items

def validFields : List (String × Json) → Bool
  | [] => true
  | (_, value) :: fields => value.valid && validFields fields

end

theorem validItems_iff (items : List Json) : validItems items = true ↔
    ∀ item ∈ items, item.valid = true := by
  induction items with
  | nil => simp [validItems]
  | cons item items ih => simp [validItems, ih]

theorem validFields_iff (fields : List (String × Json)) :
    validFields fields = true ↔ ∀ field ∈ fields, field.2.valid = true := by
  induction fields with
  | nil => simp [validFields]
  | cons field fields ih => simp [validFields, ih]

end trees

section codec

structure Codec (T : Type) where
  encode : Json → T
  decode : T → Except String Json
  /-- The first value of a stream. -/
  decodeFirst : T → Except String Json
  append : T → T → T
  newline : T
  empty : T
  isEmpty : T → Bool
  marshalError : Json → String

/-- What is written is read back, also with a new line behind it, and at the
head of a stream. -/
structure Codec.Lawful {T : Type} (codec : Codec T) : Prop where
  decode_encode : ∀ j, j.valid = true → codec.decode (codec.encode j) = .ok j
  decode_line : ∀ j, j.valid = true →
    codec.decode (codec.append (codec.encode j) codec.newline) = .ok j
  decodeFirst_line : ∀ j rest, j.valid = true →
    codec.decodeFirst (codec.append (codec.append (codec.encode j) codec.newline) rest) = .ok j
  isEmpty_encode : ∀ j, j.valid = true → codec.isEmpty (codec.encode j) = false

def Codec.marshal {T : Type} (codec : Codec T) (j : Json) : Except String T :=
  if j.valid then .ok (codec.encode j) else .error (codec.marshalError j)

theorem Codec.marshal_of_valid {T : Type} (codec : Codec T) {j : Json} (h : j.valid = true) :
    codec.marshal j = .ok (codec.encode j) := if_pos h

end codec

section reading

variable {α : Type}

def typeError : String := "json: cannot unmarshal into Go value"

def readString : Json → Except String String
  | .null => .ok ""
  | .str s => .ok s
  | _ => .error typeError

def readList (read : Json → Except String α) : Json → Except String (List α)
  | .null => .ok []
  | .arr items => items.mapM read
  | _ => .error typeError

/-- The value of a key, the last one if the key is repeated. -/
def field (fields : List (String × Json)) (name : String) : Option Json :=
  (fields.reverse.find? fun f => decide (f.1 = name)).map Prod.snd

def readObject (read : (String → Option Json) → Except String α) : Json → Except String α
  | .null => read fun _ => none
  | .obj fields => read (field fields)
  | _ => .error typeError

theorem readList_arr {read : Json → Except String α} {β : Type} {write : β → Json} {value : β → α}
    {xs : List β} (h : ∀ x ∈ xs, read (write x) = .ok (value x)) :
    readList read (.arr (xs.map write)) = .ok (xs.map value) := by
  change (xs.map write).mapM read = _
  rw [List.mapM_map]
  exact mapM_ok h

theorem list_round_trip {β : Type} {xs : List β} {write : β → Json} {read : Json → Except String α}
    {raw : β → α} {convert : α → Except String β} (hvalid : ∀ x ∈ xs, (write x).valid = true)
    (hread : ∀ x ∈ xs, read (write x) = .ok (raw x))
    (hconvert : ∀ x ∈ xs, convert (raw x) = .ok x) :
    (Json.arr (xs.map write)).valid = true ∧ readList read (.arr (xs.map write)) = .ok
      (xs.map raw) ∧
      (xs.map raw).mapM convert = .ok xs := by
  refine ⟨?_, readList_arr hread, ?_⟩
  · rw [Json.valid, validItems_iff]
    intro item hitem
    obtain ⟨x, hx, rfl⟩ := List.mem_map.mp hitem
    exact hvalid x hx
  · have hmap : (xs.map raw).mapM convert = .ok (xs.map id) := by
      rw [List.mapM_map]
      exact mapM_ok hconvert
    rw [hmap, List.map_id]

end reading

end LogCache.JsonText
