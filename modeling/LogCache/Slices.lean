import Mathlib.Data.List.Basic
import Mathlib.Order.Lattice

namespace LogCache.Slices

variable {α : Type}

/-- The arrays behind slices, by number. A cell that nothing has been written to
is `none`. -/
structure Memory (α : Type) where
  cells : Nat → Nat → Option α
  next : Nat

structure Slice where
  array : Nat
  length : Nat
  capacity : Nat

def Memory.empty : Memory α := ⟨fun _ _ => none, 0⟩

def make (m : Memory α) : Memory α × Slice := ({ m with next := m.next + 1 }, ⟨m.next, 0, 0⟩)

def Slice.truncate (s : Slice) : Slice := { s with length := 0 }

def write (m : Memory α) (array i : Nat) (a : α) : Memory α :=
  { m with cells := Function.update m.cells array (Function.update (m.cells array) i (some a)) }

/-- `append(s, a)`: into the array of `s` if there is room, and otherwise into a
copy of it. `grow` is by how much more than needed the copy is larger. -/
def append (grow : Nat → Nat) (m : Memory α) (s : Slice) (a : α) : Memory α × Slice :=
  if s.length < s.capacity then (write m s.array s.length a, { s with length := s.length + 1 })
  else
    let copied : Memory α := ⟨Function.update m.cells m.next (m.cells s.array), m.next + 1⟩
    (write copied m.next s.length a, ⟨m.next, s.length + 1, s.length + 1 + grow s.length⟩)

def elements (m : Memory α) (s : Slice) : List α :=
  (List.range s.length).filterMap (m.cells s.array)

structure Valid (m : Memory α) (s : Slice) : Prop where
  allocated : s.array < m.next
  written : ∀ i < s.length, (m.cells s.array i).isSome

variable {grow : Nat → Nat} {m : Memory α} {s t : Slice} {a : α}

theorem length_elements (h : Valid m s) : (elements m s).length = s.length := by
  have hall : (List.range s.length).countP (fun i => (m.cells s.array i).isSome) =
      (List.range s.length).length := by
    apply List.countP_eq_length.mpr
    exact fun i hi => h.written i (List.mem_range.mp hi)
  rw [elements, List.length_filterMap_eq_countP, hall, List.length_range]

theorem elements_congr {m' : Memory α}
    (harray : ∀ i < s.length, m'.cells t.array i = m.cells s.array i)
    (hlength : t.length = s.length) : elements m' t = elements m s := by
  rw [elements, elements, hlength]
  exact List.filterMap_congr fun i hi => harray i (List.mem_range.mp hi)

theorem write_of_ne {array i j : Nat} (h : j ≠ i) :
    (write m array i a).cells array j = m.cells array j := by
  rw [write]
  dsimp only
  rw [Function.update_self, Function.update_of_ne h]

theorem write_self {array i : Nat} : (write m array i a).cells array i = some a := by
  rw [write]
  dsimp only
  rw [Function.update_self, Function.update_self]

theorem write_other {array array' i : Nat} (h : array' ≠ array) :
    (write m array i a).cells array' = m.cells array' := by
  rw [write]
  dsimp only
  rw [Function.update_of_ne h]

section append

theorem append_length : (append grow m s a).2.length = s.length + 1 := by
  rw [append]
  split_ifs <;> rfl

theorem append_next : m.next ≤ (append grow m s a).1.next := by
  rw [append]
  split_ifs
  · exact le_rfl
  · exact Nat.le_succ m.next

theorem append_array (h : Valid m s) :
    (append grow m s a).2.array < (append grow m s a).1.next ∧
      ((append grow m s a).2.array = s.array ∨ m.next ≤ (append grow m s a).2.array) := by
  rw [append]
  split_ifs
  · exact ⟨h.allocated, .inl rfl⟩
  · exact ⟨Nat.lt_succ_self m.next, .inr le_rfl⟩

theorem append_cells :
    (∀ i < s.length, (append grow m s a).1.cells (append grow m s a).2.array i =
      m.cells s.array i) ∧
      (append grow m s a).1.cells (append grow m s a).2.array s.length = some a := by
  rw [append]
  split_ifs
  · exact ⟨fun i hi => write_of_ne hi.ne, write_self⟩
  · refine ⟨fun i hi => ?_, write_self⟩
    dsimp only
    rw [write_of_ne hi.ne]
    exact congrFun (Function.update_self m.next (m.cells s.array) m.cells) i

theorem append_valid (h : Valid m s) : Valid (append grow m s a).1 (append grow m s a).2 where
  allocated := (append_array h).1
  written i hi := by
    rw [append_length] at hi
    rcases Nat.lt_succ_iff_lt_or_eq.mp hi with hlt | rfl
    · rw [append_cells.1 i hlt]
      exact h.written i hlt
    · rw [append_cells.2]
      rfl

theorem elements_append :
    elements (append grow m s a).1 (append grow m s a).2 = elements m s ++ [a] := by
  rw [elements, append_length, List.range_succ, List.filterMap_append]
  congr 1
  · exact List.filterMap_congr fun i hi => append_cells.1 i (List.mem_range.mp hi)
  · simp only [List.filterMap_cons, append_cells.2, List.filterMap_nil]

theorem append_frame (ht : Valid m t) (hne : t.array ≠ s.array) :
    (append grow m s a).1.cells t.array = m.cells t.array := by
  rw [append]
  split_ifs
  · exact write_other hne
  · dsimp only
    rw [write_other ht.allocated.ne]
    exact Function.update_of_ne ht.allocated.ne _ _

end append

theorem Valid.of_cells {m' : Memory α} (h : Valid m s) (hcells : m'.cells s.array = m.cells s.array)
    (hnext : m.next ≤ m'.next) : Valid m' s where
  allocated := h.allocated.trans_le hnext
  written i hi := by
    rw [hcells]
    exact h.written i hi

end LogCache.Slices
