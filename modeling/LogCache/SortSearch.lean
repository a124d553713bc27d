import Mathlib.Data.List.Basic
import Mathlib.Order.Fin.Basic

namespace LogCache.SortSearch

section search

variable {n : Nat} (f : Fin n → Bool)

/-- The loop of the search: the first index at which `f` holds is in `i..j`. -/
def searchLoop (i j : Nat) (hj : j ≤ n) : Nat :=
  if h : i < j then
    if f ⟨(i + j) / 2, by omega⟩ then searchLoop i ((i + j) / 2) (by omega)
    else searchLoop ((i + j) / 2 + 1) j hj
  else i
termination_by j - i

def search (n : Nat) (f : Fin n → Bool) : Nat := searchLoop f 0 n (Nat.le_refl n)

variable {f}

/-- Everything before `i` is known not to satisfy `f`, and everything from `j`
on to satisfy it. -/
structure Between (f : Fin n → Bool) (i j : Nat) : Prop where
  le : i ≤ j
  below : ∀ k : Fin n, k.val < i → f k = false
  above : ∀ k : Fin n, j ≤ k.val → f k = true

variable (hmono : ∀ k l : Fin n, k ≤ l → f k = true → f l = true)
include hmono

theorem Between.left {i j : Nat} (h : Between f i j) {m : Fin n} (hm : i ≤ m.val)
    (hf : f m = true) :
    Between f i m.val :=
  ⟨hm, h.below, fun k hk => hmono m k hk hf⟩

theorem Between.right {i j : Nat} (h : Between f i j) {m : Fin n} (hm : m.val < j)
    (hf : f m = false) :
    Between f (m.val + 1) j := by
  refine ⟨hm, fun k hk => ?_, h.above⟩
  cases hk' : f k with
  | false => rfl
  | true => exact (hmono k m (Nat.le_of_lt_succ hk) hk').symm.trans hf

theorem searchLoop_between (i j : Nat) (hj : j ≤ n) (h : Between f i j) :
    Between f (searchLoop f i j hj) (searchLoop f i j hj) ∧ searchLoop f i j hj ≤ n := by
  induction i, j, hj using searchLoop.induct f with
  | case1 i j hj hlt hf ih =>
      rw [searchLoop, dif_pos hlt, if_pos hf]
      exact ih (h.left hmono (by simp only; omega) hf)
  | case2 i j hj hlt hf ih =>
      rw [searchLoop, dif_pos hlt, if_neg hf]
      exact ih (h.right hmono (by simp only; omega) (Bool.not_eq_true _ ▸ hf))
  | case3 i j hj hlt =>
      rw [searchLoop, dif_neg hlt]
      obtain rfl : i = j := Nat.le_antisymm h.le (Nat.le_of_not_lt hlt)
      exact ⟨h, hj⟩

theorem search_between : Between f (search n f) (search n f) ∧ search n f ≤ n :=
  searchLoop_between hmono 0 n (Nat.le_refl n)
    ⟨Nat.zero_le n, fun _ hk => absurd hk (Nat.not_lt_zero _),
      fun k hk => absurd k.isLt (Nat.not_lt.mpr hk)⟩

theorem search_le : search n f ≤ n := (search_between hmono).2

theorem search_le_iff (k : Fin n) : search n f ≤ k.val ↔ f k = true := by
  have h := (search_between hmono).1
  constructor
  · exact h.above k
  · intro hk
    by_contra hlt
    exact absurd ((h.below k (Nat.lt_of_not_le hlt)).symm.trans hk) Bool.false_ne_true

end search

theorem filter_eq_drop {α : Type} (p : α → Bool) (xs : List α) (c : Nat)
    (h : ∀ k : Fin xs.length, c ≤ k.val ↔ p (xs.get k) = true) : xs.filter p = xs.drop c := by
  induction xs generalizing c with
  | nil => rw [List.filter_nil, List.drop_nil]
  | cons x xs ih =>
      have hhead : c ≤ 0 ↔ p x = true := h ⟨0, Nat.zero_lt_succ _⟩
      cases c with
      | zero =>
          rw [List.filter_cons_of_pos (hhead.mp (Nat.le_refl 0)),
            ih 0 fun k => iff_of_true (Nat.zero_le _) ((h k.succ).mp (Nat.zero_le _))]
          rfl
      | succ c =>
          have hx : ¬ p x = true := fun hx => absurd (hhead.mpr hx) (Nat.not_succ_le_zero c)
          rw [List.filter_cons_of_neg hx, List.drop_succ_cons]
          refine ih c fun k => ?_
          rw [← Nat.succ_le_succ_iff]
          exact h k.succ

end LogCache.SortSearch
