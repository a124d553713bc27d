import Mathlib.Data.List.Basic

namespace LogCache.Laps

variable {α : Type}

def newest (size start stop : Nat) : Nat := stop - 1 - (stop - 1 - start) % size

/-- All that was written, and how far a reader has come that can be lapped. -/
structure Log (α : Type) where
  entries : List α
  read : Nat

namespace Log

def empty : Log α := ⟨[], 0⟩

def set (l : Log α) (a : α) : Log α := { l with entries := l.entries ++ [a] }

/-- The entry that a reader gets whose slot was overwritten once for each lap,
with the number of entries it misses by that. -/
def tryNext (size : Nat) (l : Log α) : Option (α × Nat) × Log α :=
  if l.read < l.entries.length then
    let seq := newest size l.read l.entries.length
    (l.entries[seq]?.map fun a => (a, seq - l.read), { l with read := seq + 1 })
  else (none, l)

def unread (l : Log α) : List α := l.entries.drop l.read

end Log

section newest

variable {size start stop : Nat}

theorem newest_bounds (hsize : 0 < size) (h : start < stop) :
    start ≤ newest size start stop ∧ newest size start stop < stop ∧
      stop ≤ newest size start stop + size := by
  have hlt := Nat.mod_lt (stop - 1 - start) hsize
  have hle := Nat.mod_le (stop - 1 - start) size
  rw [newest]
  omega

theorem newest_mod (h : start < stop) : newest size start stop % size = start % size := by
  have hdiv := Nat.div_add_mod (stop - 1 - start) size
  have heq : newest size start stop = start + size * ((stop - 1 - start) / size) := by
    rw [newest]
    omega
  rw [heq, Nat.add_mul_mod_self_left]

theorem newest_of_le (h : start < stop) (hlap : stop ≤ start + size) :
    newest size start stop = start := by
  rw [newest, Nat.mod_eq_of_lt (by omega)]
  omega

theorem mod_ne {seq seq' : Nat} (hlt : seq < seq') (hlap : seq' < seq + size) :
    seq % size ≠ seq' % size := by
  intro heq
  have hdvd : size ∣ seq' - seq := Nat.dvd_of_mod_eq_zero (Nat.sub_mod_eq_zero_of_mod_eq heq.symm)
  exact absurd (Nat.le_of_dvd (Nat.sub_pos_of_lt hlt) hdvd) (by omega)

end newest

section reading

variable {size : Nat} {l : Log α}

theorem tryNext_end (h : l.entries.length ≤ l.read) : l.tryNext size = (none, l) :=
  if_neg (Nat.not_lt.mpr h)

theorem tryNext_entries : (l.tryNext size).2.entries = l.entries := by
  rw [Log.tryNext]
  split_ifs <;> rfl

theorem tryNext_entry (hsize : 0 < size) (h : l.read < l.entries.length) :
    ∃ a, l.entries[newest size l.read l.entries.length]? = some a ∧
      l.tryNext size = (some (a, newest size l.read l.entries.length - l.read),
        ⟨l.entries, newest size l.read l.entries.length + 1⟩) := by
  have hlt := (newest_bounds hsize h).2.1
  refine ⟨l.entries[newest size l.read l.entries.length], List.getElem?_eq_getElem hlt, ?_⟩
  simp only [Log.tryNext, if_pos h, List.getElem?_eq_getElem hlt]
  rfl

theorem tryNext_unread (hlap : l.unread.length ≤ size) :
    (l.tryNext size).1 = l.unread.head?.map
      (fun a => (a, 0)) ∧ (l.tryNext size).2.unread = l.unread.tail := by
  rw [Log.unread, List.length_drop] at hlap
  by_cases h : l.read < l.entries.length
  · have hnewest := newest_of_le h (show l.entries.length ≤ l.read + size by omega)
    rw [Log.tryNext, if_pos h]
    simp [hnewest, Log.unread]
  · rw [tryNext_end (Nat.not_lt.mp h)]
    simp [Log.unread, List.drop_eq_nil_of_le (Nat.not_lt.mp h)]

/-- What was given out is part of what lies before the read index, in order,
and the misses are the rest of it. -/
structure Accounted (l : Log α) (given : List α) (missed : Nat) : Prop where
  order : given.Sublist (l.entries.take l.read)
  count : given.length + missed = l.read
  bound : l.read ≤ l.entries.length

variable {given : List α} {missed : Nat}

theorem empty_accounted : Accounted (Log.empty : Log α) [] 0 :=
  ⟨List.Sublist.refl _, rfl, Nat.le_refl 0⟩

theorem set_accounted (h : Accounted l given missed) (a : α) :
    Accounted (l.set a) given missed where
  order := by
    have htake : (l.entries ++ [a]).take l.read = l.entries.take l.read :=
      List.take_append_of_le_length h.bound
    simpa only [Log.set, htake] using h.order
  count := h.count
  bound := Nat.le_trans h.bound (by simp [Log.set])

theorem tryNext_accounted (hsize : 0 < size) (h : Accounted l given missed) :
    Accounted (l.tryNext size).2 (given ++ ((l.tryNext size).1.map Prod.fst).toList)
      (missed + (l.tryNext size).1.elim 0 Prod.snd) := by
  rcases Nat.lt_or_ge l.read l.entries.length with hlt | hge
  · obtain ⟨a, ha, htry⟩ := tryNext_entry hsize hlt
    obtain ⟨hle, hstop, _⟩ := newest_bounds hsize hlt
    rw [htry]
    refine ⟨?_, ?_, hstop⟩
    · change (given ++ [a]).Sublist (l.entries.take (newest size l.read l.entries.length + 1))
      rw [List.take_add_one, ha]
      exact (h.order.trans (List.take_sublist_take_left hle)).append (List.Sublist.refl [a])
    · have hcount := h.count
      simp
      omega
  · rw [tryNext_end hge]
    simpa using h

end reading

end LogCache.Laps
