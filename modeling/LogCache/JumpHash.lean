import LogCache.Rounding
import LogCache.Wiring

namespace LogCache.JumpHash

open Rounding Routing Wiring

structure Hasher where
  n : Nat
  pos : 0 < n
  small : n < 2 ^ 31

/-- More buckets than an `int32` can count are left out. -/
def newHasher (n : Nat) : Hasher :=
  if h : 0 < n ∧ n < 2 ^ 31 then ⟨n, h.1, h.2⟩ else ⟨1, Nat.one_pos, by decide⟩

def nextKey (key : UInt64) : UInt64 := key * 2862933555777941757 + 1

def jump (b : Nat) (key : UInt64) : Nat :=
  ⌊float64 (float64 (b + 1) * float64 (float64 (2 ^ 31) / float64 ((key >>> 33).toNat + 1)))⌋₊

section jumps

variable {b : Nat}

theorem shift_lt (key : UInt64) : (key >>> 33).toNat + 1 ≤ 2 ^ 31 := by
  have hlt := key.toNat_lt
  have hshift : (key >>> 33).toNat = key.toNat / 2 ^ 33 := by
    rw [UInt64.toNat_shiftRight, Nat.shiftRight_eq_div_pow]
    rfl
  omega

theorem le_jump {key : UInt64} {q : Nat} (hq : q * ((key >>> 33).toNat + 1) ≤ 2 ^ 31)
    (hproduct : (b + 1) * q < 2 ^ 53) (hb : b + 1 < 2 ^ 53) : (b + 1) * q ≤ jump b key := by
  have hshift := shift_lt key
  have hdivisor : float64 ((key >>> 33).toNat + 1) = ((key >>> 33).toNat + 1 : ℕ) := by
    have := @float64_natCast ((key >>> 33).toNat + 1) (by omega)
    rwa [Nat.cast_succ] at this ⊢
  have hdividend : float64 (2 ^ 31) = ((2 ^ 31 : ℕ) : ℚ) := by
    have := @float64_natCast (2 ^ 31) (by decide)
    rwa [Nat.cast_pow] at this ⊢
  have hbucket : float64 (b + 1) = ((b + 1 : ℕ) : ℚ) := by
    have := @float64_natCast (b + 1) hb
    rwa [Nat.cast_succ] at this ⊢
  have hpos : (0 : ℚ) < ((key >>> 33).toNat + 1 : ℕ) := Nat.cast_pos.mpr (Nat.succ_pos _)
  have hquotient : (q : ℚ) ≤ float64 (float64 (2 ^ 31) / float64 ((key >>> 33).toNat + 1)) := by
    have hlt : q < 2 ^ 53 := (Nat.le_mul_of_pos_right q (Nat.succ_pos _)).trans_lt
      (hq.trans_lt (by decide))
    apply natCast_le_float64 hlt
    rw [hdivisor, hdividend, le_div_iff₀ hpos]
    exact_mod_cast hq
  refine Nat.le_floor (natCast_le_float64 hproduct ?_)
  rw [hbucket, Nat.cast_mul]
  exact mul_le_mul_of_nonneg_left hquotient (Nat.cast_nonneg _)

theorem lt_jump (hb : b < 2 ^ 31) (key : UInt64) : b < jump b key := by
  have hone : 1 * ((key >>> 33).toNat + 1) ≤ 2 ^ 31 := (Nat.one_mul _).trans_le (shift_lt key)
  have hle := le_jump hone (b := b) (by omega) (by omega)
  omega

end jumps

def hashLoop (h : Hasher) (key : UInt64) (b : Int) (j : Nat) : Int :=
  if _hj : j < h.n then hashLoop h (nextKey key) j (jump j (nextKey key)) else b
termination_by h.n - j
decreasing_by
  have := lt_jump (_hj.trans h.small) (nextKey key)
  omega

def Hasher.hash (h : Hasher) (key : UInt64) : Int := hashLoop h key (-1) 0

section buckets

variable {h h' : Hasher}

theorem hashLoop_bounds {j : Nat} (key : UInt64) (b : Int) (hj : j < h.n) :
    (j : Int) ≤ hashLoop h key b j ∧ hashLoop h key b j < h.n := by
  induction hk : h.n - j using Nat.strongRecOn generalizing key b j with
  | ind k ih =>
      have hlt := lt_jump (hj.trans h.small) (nextKey key)
      rw [hashLoop, dif_pos hj]
      by_cases hnext : jump j (nextKey key) < h.n
      · obtain ⟨hle, hlt'⟩ := ih _ (by omega) (nextKey key) j hnext rfl
        exact ⟨by omega, hlt'⟩
      · rw [hashLoop, dif_neg hnext]
        exact ⟨Int.le_refl _, Int.ofNat_lt.mpr hj⟩

theorem hashLoop_grow (hn : h.n ≤ h'.n) (key : UInt64) (b : Int) (j : Nat) :
    hashLoop h' key b j = hashLoop h key b j ∨ (h.n : Int) ≤ hashLoop h' key b j := by
  induction hk : h.n - j using Nat.strongRecOn generalizing key b j with
  | ind k ih =>
      by_cases hj : j < h.n
      · have hlt := lt_jump (hj.trans h.small) (nextKey key)
        rw [hashLoop, dif_pos (Nat.lt_of_lt_of_le hj hn)]
        have hloop : hashLoop h key b j = hashLoop h (nextKey key) j (jump j (nextKey key)) := by
          rw [hashLoop, dif_pos hj]
        rw [hloop]
        exact ih _ (by omega) _ _ _ rfl
      · by_cases hj' : j < h'.n
        · have := (hashLoop_bounds key b hj').1
          exact Or.inr (by omega)
        · rw [hashLoop, dif_neg hj', hashLoop, dif_neg hj]
          exact Or.inl rfl

theorem hash_bounds (h : Hasher) (key : UInt64) : 0 ≤ h.hash key ∧ h.hash key < h.n :=
  hashLoop_bounds key (-1) h.pos

end buckets

section routes

variable {addrs more : List String}

theorem newHasher_n {n : Nat} (hpos : 0 < n) (hsmall : n < 2 ^ 31) : (newHasher n).n = n := by
  rw [newHasher, dif_pos ⟨hpos, hsmall⟩]

theorem newHasher_le {n : Nat} (hpos : 0 < n) : (newHasher n).n ≤ n := by
  rw [newHasher]
  split_ifs
  · exact Nat.le_refl n
  · exact hpos

/-- The hashing of a routing table, for any hash of the item. -/
def jumpHashing (sum64String : String → UInt64) : Hashing where
  sum64String := sum64String
  hash n key := ((newHasher n).hash key).toNat
  hash_lt {n} key hpos := by
    have hbounds := hash_bounds (newHasher n) key
    have hle := newHasher_le hpos
    omega

def testHashes : Hashing :=
  jumpHashing fun item =>
    if item = "0" then 7148434200721666028
    else if item = "200" then 2685111111418367100
    else 11111781720710347155

theorem owner_fourHundred {addrs : List String} (hpos : 0 < addrs.length)
    (hle : addrs.length ≤ 4) : owner testHashes addrs "400" = 0 := by
  have hn := newHasher_n hpos (hle.trans_lt (by decide))
  have hjump : 5 ≤ jump 0 (nextKey 11111781720710347155) := by
    have hshift : 5 * ((nextKey 11111781720710347155 >>> 33).toNat + 1) ≤ 2 ^ 31 := by
      decide +kernel
    exact le_jump (b := 0) hshift (by decide) (by decide)
  change ((newHasher addrs.length).hash 11111781720710347155).toNat = 0
  rw [Hasher.hash, hashLoop, dif_pos (newHasher addrs.length).pos, hashLoop, dif_neg (by omega)]
  rfl

end routes

end LogCache.JumpHash
