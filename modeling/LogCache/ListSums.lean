import Mathlib.Algebra.BigOperators.Group.List.Basic
import Mathlib.Algebra.GroupWithZero.Nat

namespace LogCache.ListSums

variable {α : Type} (f : α → Nat)

theorem sum_map_set {xs : List α} {k : Nat} {a : α} (hk : xs[k]? = some a) (b : α) :
    ((xs.set k b).map f).sum + f a = (xs.map f).sum + f b := by
  induction xs generalizing k with
  | nil => cases hk
  | cons x xs ih =>
      cases k with
      | zero =>
          cases hk
          rw [List.set_cons_zero, List.map_cons, List.map_cons, List.sum_cons, List.sum_cons]
          omega
      | succ k =>
          rw [List.set_cons_succ, List.map_cons, List.map_cons, List.sum_cons, List.sum_cons]
          have := ih hk
          omega

theorem sum_map_eraseIdx {xs : List α} {m : Nat} {x : α} (hm : xs[m]? = some x) :
    (xs.map f).sum = f x + ((xs.eraseIdx m).map f).sum := by
  obtain ⟨hlt, rfl⟩ := List.getElem?_eq_some_iff.mp hm
  rw [← ((List.getElem_cons_eraseIdx_perm hlt).map f).sum_eq, List.map_cons, List.sum_cons]

theorem sum_map_eq_single {xs : List α} {i : Nat} {a : α} (hi : xs[i]? = some a)
    (hzero : ∀ k b, xs[k]? = some b → k ≠ i → f b = 0) : (xs.map f).sum = f a := by
  induction xs generalizing i with
  | nil => cases hi
  | cons x xs ih =>
      rw [List.map_cons, List.sum_cons]
      cases i with
      | zero =>
          cases hi
          rw [List.sum_eq_zero, Nat.add_zero]
          intro n hn
          obtain ⟨b, hb, rfl⟩ := List.mem_map.mp hn
          obtain ⟨k, hk⟩ := List.mem_iff_getElem?.mp hb
          exact hzero (k + 1) b hk (Nat.succ_ne_zero k)
      | succ i =>
          rw [hzero 0 x rfl (Nat.succ_ne_zero i).symm, Nat.zero_add]
          exact ih hi fun k b hk hne => hzero (k + 1) b hk fun h => hne (Nat.succ.inj h)

end LogCache.ListSums
