import Mathlib.Data.List.Basic

namespace LogCache.Runes

def runeError : Char := Char.ofNat 0xFFFD

structure Rune where
  value : Char
  bytes : List UInt8
deriving DecidableEq

def Rune.of (c : Char) : Rune := ⟨c, String.utf8EncodeChar c⟩

/-- `utf8.DecodeRune` of a string that begins with `b`, and the string after
the rune. A byte that begins no encoding is an error of its own. -/
def decodeRune (b : UInt8) (s : List UInt8) : Rune × List UInt8 :=
  match (b :: s).toByteArray.utf8DecodeChar? 0 with
  | some c => (⟨c, (b :: s).take c.utf8Size⟩, (b :: s).drop c.utf8Size)
  | none => (⟨runeError, [b]⟩, s)

example : decodeRune 0xE2 [0x82, 0x61] = (⟨runeError, [0xE2]⟩, [0x82, 0x61]) := by
  decide

theorem length_decodeRune (b : UInt8) (s : List UInt8) :
    (decodeRune b s).2.length < (b :: s).length := by
  rw [decodeRune]
  split
  · rename_i c _
    have hpos := c.utf8Size_pos
    rw [List.length_drop, List.length_cons]
    omega
  · exact Nat.lt_succ_self _

def runes : List UInt8 → List Rune
  | [] => []
  | b :: s => (decodeRune b s).1 :: runes (decodeRune b s).2
termination_by s => s.length
decreasing_by exact length_decodeRune b s

theorem utf8EncodeChar_ne_nil (c : Char) : String.utf8EncodeChar c ≠ [] := by
  intro h
  have hlength := String.length_utf8EncodeChar c
  rw [h] at hlength
  exact absurd c.utf8Size_pos (hlength ▸ Nat.lt_irrefl 0)

theorem decodeRune_encode {c : Char} {b : UInt8} {s t : List UInt8}
    (h : b :: s = String.utf8EncodeChar c ++ t) :
    decodeRune b s = (.of c, t) := by
  have hlength := String.length_utf8EncodeChar c
  have hdecode : (b :: s).toByteArray.utf8DecodeChar? 0 = some c := by
    rw [h, List.toByteArray_append]
    exact ByteArray.utf8DecodeChar?_utf8EncodeChar_append
  rw [decodeRune, hdecode]
  simp only [h, ← hlength, List.take_left, List.drop_left]
  rfl

def encode (cs : List Char) : List UInt8 := cs.flatMap String.utf8EncodeChar

theorem runes_encode (cs : List Char) : runes (encode cs) = cs.map Rune.of := by
  induction cs with
  | nil => rw [encode, List.flatMap_nil, runes, List.map_nil]
  | cons c cs ih =>
      obtain ⟨b, s, hs⟩ := List.exists_cons_of_ne_nil (utf8EncodeChar_ne_nil c)
      have hdecode : decodeRune b (s ++ encode cs) = (.of c, encode cs) :=
        decodeRune_encode (by rw [hs]; rfl)
      have hencode : encode (c :: cs) = b :: (s ++ encode cs) := by
        rw [encode, List.flatMap_cons, hs]
        rfl
      rw [hencode, runes, hdecode, ih, List.map_cons]

theorem take_of_decode {s : List UInt8} {c : Char} (h : s.toByteArray.utf8DecodeChar? 0 = some c) :
    s.take c.utf8Size = String.utf8EncodeChar c := by
  have hbytes := congrArg (fun b => b.data.toList)
      (String.toByteArray_utf8EncodeChar_of_utf8DecodeChar?_eq_some h)
  simpa using hbytes.symm

theorem decodeRune_eq (b : UInt8) (s : List UInt8) :
    (decodeRune b s).1 = .of (decodeRune b s).1.value ∨ (decodeRune b s).1 = ⟨runeError, [b]⟩ := by
  cases hdecode : (b :: s).toByteArray.utf8DecodeChar? 0 with
  | some c =>
      refine Or.inl ?_
      simp only [decodeRune, hdecode, take_of_decode hdecode]
      rfl
  | none =>
      refine Or.inr ?_
      simp only [decodeRune, hdecode]

theorem eq_of_mem_runes {s : List UInt8} {r : Rune} (h : r ∈ runes s)
    (hvalue : r.value ≠ runeError) :
    r = .of r.value := by
  induction s using runes.induct with
  | case1 =>
      rw [runes] at h
      exact absurd h List.not_mem_nil
  | case2 b s ih =>
      rw [runes] at h
      rcases List.mem_cons.mp h with rfl | h
      · rcases decodeRune_eq b s with heq | herror
        · exact heq
        · exact absurd (congrArg Rune.value herror) hvalue
      · exact ih h

end LogCache.Runes
