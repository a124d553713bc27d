import Mathlib.Data.List.Basic

namespace LogCache.Base64

def symbol (v : Nat) : UInt8 :=
  if v < 26 then .ofNat (65 + v)
  else if v < 52 then .ofNat (71 + v)
  else if v < 62 then .ofNat (v - 4)
  else if v = 62 then 43
  else 47

def sextet (c : UInt8) : Option Nat :=
  if 65 ≤ c ∧ c ≤ 90 then some (c.toNat - 65)
  else if 97 ≤ c ∧ c ≤ 122 then some (c.toNat - 71)
  else if 48 ≤ c ∧ c ≤ 57 then some (c.toNat + 4)
  else if c = 43 then some 62
  else if c = 47 then some 63
  else none

def padChar : UInt8 := 61

def isNewline (c : UInt8) : Bool := c == 10 || c == 13

/-- The bytes of a quantum. Bits that are left over are not looked at. -/
def bytes : List Nat → List UInt8
  | [a, b] => [.ofNat (a * 4 + b / 16)]
  | [a, b, c] => [.ofNat (a * 4 + b / 16), .ofNat (b % 16 * 16 + c / 4)]
  | [a, b, c, d] => [.ofNat (a * 4 + b / 16), .ofNat (b % 16 * 16 + c / 4), .ofNat (c % 4 * 64 + d)]
  | _ => []

def skipNewlines (pos : Nat) : List UInt8 → Nat × List UInt8
  | [] => (pos, [])
  | c :: cs => if isNewline c then skipNewlines (pos + 1) cs else (pos, c :: cs)

def finish (quantum : List Nat) (pos : Nat) (cs : List UInt8) : Except Nat (List UInt8) :=
  match skipNewlines pos cs with
  | (_, []) => .ok (bytes quantum)
  | (pos, _ :: _) => .error pos

def padding (quantum : List Nat) (pos : Nat) (cs : List UInt8) : Except Nat (List UInt8) :=
  if quantum.length < 2 then .error pos
  else if quantum.length = 2 then
    match skipNewlines (pos + 1) cs with
    | (pos, []) => .error pos
    | (pos, c :: cs) => if c = padChar then finish quantum (pos + 1) cs else .error (pos - 1)
  else finish quantum (pos + 1) cs

def decodeFrom (pos : Nat) (quantum : List Nat) : List UInt8 → Except Nat (List UInt8)
  | [] => if quantum = [] then .ok [] else .error (pos - quantum.length)
  | c :: cs =>
      match sextet c with
      | some v =>
          if quantum.length = 3 then (bytes (quantum ++ [v]) ++ ·) <$> decodeFrom (pos + 1) [] cs
          else decodeFrom (pos + 1) (quantum ++ [v]) cs
      | none =>
          if isNewline c then decodeFrom (pos + 1) quantum cs
          else if c = padChar then padding quantum pos cs
          else .error pos

def decodeString (cs : List UInt8) : Except Nat (List UInt8) := decodeFrom 0 [] cs

def symbols : List UInt8 → List UInt8
  | x :: y :: z :: rest =>
      symbol (x.toNat / 4) :: symbol (x.toNat % 4 * 16 + y.toNat / 16) ::
        symbol (y.toNat % 16 * 4 + z.toNat / 64) :: symbol (z.toNat % 64) :: symbols rest
  | [x, y] =>
      [symbol (x.toNat / 4), symbol (x.toNat % 4 * 16 + y.toNat / 16), symbol (y.toNat % 16 * 4)]
  | [x] => [symbol (x.toNat / 4), symbol (x.toNat % 4 * 16)]
  | [] => []

def pads (length : Nat) : List UInt8 := List.replicate ((4 - length % 4) % 4) padChar

def encodeToString (bs : List UInt8) : List UInt8 := symbols bs ++ pads (symbols bs).length

section symbols

theorem sextet_symbol {v : Nat} (h : v < 64) : sextet (symbol v) = some v := by
  have hall : ∀ v < 64, sextet (symbol v) = some v := by decide
  exact hall v h

def IsSymbol (c : UInt8) : Prop := ∃ v < 64, c = symbol v

theorem symbols_isSymbol (bs : List UInt8) : ∀ c ∈ symbols bs, IsSymbol c := by
  induction bs using symbols.induct with
  | case1 x y z rest ih =>
      have hx := x.toNat_lt
      have hy := y.toNat_lt
      have hz := z.toNat_lt
      simp only [symbols, List.forall_mem_cons]
      exact ⟨⟨_, by omega, rfl⟩, ⟨_, by omega, rfl⟩, ⟨_, by omega, rfl⟩, ⟨_, by omega, rfl⟩, ih⟩
  | case2 x y =>
      have hx := x.toNat_lt
      have hy := y.toNat_lt
      simp only [symbols, List.forall_mem_cons]
      exact ⟨⟨_, by omega, rfl⟩, ⟨_, by omega, rfl⟩, ⟨_, by omega, rfl⟩, List.forall_mem_nil _⟩
  | case3 x =>
      have hx := x.toNat_lt
      simp only [symbols, List.forall_mem_cons]
      exact ⟨⟨_, by omega, rfl⟩, ⟨_, by omega, rfl⟩, List.forall_mem_nil _⟩
  | case4 => exact fun c hc => absurd hc List.not_mem_nil

end symbols

section decoding

theorem decodeFrom_symbol {v : Nat} (hv : v < 64) (pos : Nat) (quantum : List Nat)
    (cs : List UInt8) :
    decodeFrom pos quantum (symbol v :: cs) =
      if quantum.length = 3 then (bytes (quantum ++ [v]) ++ ·) <$> decodeFrom (pos + 1) [] cs
      else decodeFrom (pos + 1) (quantum ++ [v]) cs := by
  rw [decodeFrom, sextet_symbol hv]

theorem decodeFrom_pad (pos : Nat) (quantum : List Nat) (cs : List UInt8) :
    decodeFrom pos quantum (padChar :: cs) = padding quantum pos cs := by
  rw [decodeFrom, show sextet padChar = none from rfl]
  rfl

theorem ofNat_of_toNat {x : UInt8} {n : Nat} (h : n = x.toNat) : UInt8.ofNat n = x := by
  rw [h, UInt8.ofNat_toNat]

theorem decodeFrom_encode (bs : List UInt8) (pos : Nat) :
    decodeFrom pos [] (symbols bs ++ pads (symbols bs).length) = .ok bs := by
  induction bs using symbols.induct generalizing pos with
  | case1 x y z rest ih =>
      have hx := x.toNat_lt
      have hy := y.toNat_lt
      have hz := z.toNat_lt
      have hpads : pads (symbols (x :: y :: z :: rest)).length = pads (symbols rest).length := by
        simp only [symbols, pads, List.length_cons]
        congr 1
        omega
      rw [hpads]
      simp only [symbols, List.cons_append]
      rw [decodeFrom_symbol (by omega), if_neg (by simp), decodeFrom_symbol (by omega),
        if_neg (by simp), decodeFrom_symbol (by omega), if_neg (by simp),
        decodeFrom_symbol (by omega), if_pos (by simp), ih]
      simp only [List.nil_append, List.cons_append, bytes]
      rw [ofNat_of_toNat (x := x) (by omega), ofNat_of_toNat (x := y) (by omega),
        ofNat_of_toNat (x := z) (by omega)]
      rfl
  | case2 x y =>
      have hx := x.toNat_lt
      have hy := y.toNat_lt
      have hpads : pads (symbols [x, y]).length = [padChar] := rfl
      rw [hpads]
      simp only [symbols, List.cons_append]
      rw [decodeFrom_symbol (by omega), if_neg (by simp), decodeFrom_symbol (by omega),
        if_neg (by simp), decodeFrom_symbol (by omega), if_neg (by simp)]
      simp only [List.nil_append, List.cons_append, decodeFrom_pad]
      change Except.ok (bytes [_, _, _]) = _
      simp only [bytes]
      rw [ofNat_of_toNat (x := x) (by omega), ofNat_of_toNat (x := y) (by omega)]
  | case3 x =>
      have hx := x.toNat_lt
      have hpads : pads (symbols [x]).length = [padChar, padChar] := rfl
      rw [hpads]
      simp only [symbols, List.cons_append]
      rw [decodeFrom_symbol (by omega), if_neg (by simp), decodeFrom_symbol (by omega),
        if_neg (by simp)]
      simp only [List.nil_append, List.cons_append, decodeFrom_pad]
      change Except.ok (bytes [_, _]) = _
      simp only [bytes]
      rw [ofNat_of_toNat (x := x) (by omega)]
  | case4 => rfl

theorem decodeString_encodeToString (bs : List UInt8) : decodeString (encodeToString bs) = .ok bs :=
  decodeFrom_encode bs 0

end decoding

end LogCache.Base64
