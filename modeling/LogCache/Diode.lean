import LogCache.Laps

namespace LogCache.Diode

open Laps

variable {α : Type}

structure Bucket (α : Type) where
  data : α
  seq : Nat
deriving DecidableEq

/-- The indices are counters that no run comes to the end of. Only the slots
are shared between the two sides: the write index belongs to the writer and the
read index to the reader, so each call is one step as long as no two calls of
`Set` overlap. `DiodeRace.apart_atomic` proves that from the single
instructions; where two calls overlap, entries can be lost. -/
structure OneToOne (α : Type) where
  size : Nat
  buffer : Nat → Option (Bucket α)
  writeIndex : Nat
  readIndex : Nat

def newOneToOne (size : Nat) : OneToOne α := ⟨size, fun _ => none, 0, 0⟩

namespace OneToOne

def set (d : OneToOne α) (data : α) : OneToOne α :=
  { d with
    buffer := Function.update d.buffer (d.writeIndex % d.size) (some ⟨data, d.writeIndex⟩)
    writeIndex := d.writeIndex + 1 }

/-- The data with the number that the alerter is called with, which is zero if
it is not called. -/
def tryNext (d : OneToOne α) : Option (α × Nat) × OneToOne α :=
  let idx := d.readIndex % d.size
  let swapped := { d with buffer := Function.update d.buffer idx none }
  match d.buffer idx with
  | none => (none, swapped)
  | some result =>
      if result.seq < d.readIndex then (none, swapped)
      else if d.readIndex < result.seq then
        (some (result.data, result.seq - d.readIndex), { swapped with readIndex := result.seq + 1 })
      else (some (result.data, 0), { swapped with readIndex := d.readIndex + 1 })

end OneToOne

/-- A slot holds the newest entry of its residue class, unless it was read. -/
structure Represents (d : OneToOne α) (l : Log α) : Prop where
  positive : 0 < d.size
  written : d.writeIndex = l.entries.length
  read : d.readIndex = l.read
  behind : l.read ≤ l.entries.length
  kept : ∀ seq a, l.read ≤ seq → l.entries.length ≤ seq + d.size → l.entries[seq]? = some a →
    d.buffer (seq % d.size) = some ⟨a, seq⟩
  recent : ∀ i bucket, d.buffer i = some bucket → bucket.seq % d.size = i ∧
    bucket.seq < l.entries.length ∧
    l.entries.length ≤ bucket.seq + d.size

theorem newOneToOne_represents {size : Nat} (h : 0 < size) :
    Represents (newOneToOne size : OneToOne α) Log.empty where
  positive := h
  written := rfl
  read := rfl
  behind := Nat.le_refl 0
  kept seq a _ _ hentry := by cases hentry
  recent i bucket hbucket := by cases hbucket

section refinement

variable {d : OneToOne α} {l : Log α}

theorem set_represents (h : Represents d l) (a : α) : Represents (d.set a) (l.set a) where
  positive := h.positive
  written := by simp [OneToOne.set, Log.set, h.written]
  read := h.read
  behind := by
    have hbehind := h.behind
    simp only [Log.set, List.length_append]
    omega
  kept seq b hread hlap hentry := by
    simp only [OneToOne.set, Log.set, List.length_append,
      List.length_singleton] at hread hlap hentry
    rcases Nat.lt_trichotomy seq l.entries.length with hlt | rfl | hgt
    · rw [List.getElem?_append_left hlt] at hentry
      have hslot : seq % d.size ≠ l.entries.length % d.size := mod_ne hlt (by omega)
      simp only [OneToOne.set, h.written, Function.update_of_ne hslot]
      exact h.kept seq b hread (by omega) hentry
    · simp_all [OneToOne.set, h.written]
    · rw [List.getElem?_eq_none (by simp; omega)] at hentry
      cases hentry
  recent i bucket hbucket := by
    simp only [OneToOne.set, h.written, Log.set, List.length_append,
      List.length_singleton] at hbucket ⊢
    by_cases hi : i = l.entries.length % d.size
    · rw [hi, Function.update_self, Option.some.injEq] at hbucket
      subst hbucket
      exact ⟨hi.symm, Nat.lt_succ_self _, Nat.add_le_add_left h.positive _⟩
    · rw [Function.update_of_ne hi] at hbucket
      obtain ⟨hmod, hlt, hlap⟩ := h.recent i bucket hbucket
      -- a bucket a whole lap behind would lie in the slot that is written
      have hne : l.entries.length ≠ bucket.seq + d.size := by
        intro heq
        exact hi (by rw [← hmod, heq, Nat.add_mod_right])
      exact ⟨hmod, by omega, by omega⟩

theorem Represents.swap (h : Represents d l) {stop : Nat} (hstop : stop ≤ l.entries.length)
    (hle : l.read ≤ stop)
    (hslot : ∀ seq, stop ≤ seq → seq < l.entries.length → l.entries.length ≤ seq + d.size →
      seq % d.size ≠ d.readIndex % d.size) :
    Represents { d with buffer := Function.update d.buffer (d.readIndex % d.size) none,
                        readIndex := stop }
      { l with read := stop } where
  positive := h.positive
  written := h.written
  read := rfl
  behind := hstop
  kept seq a hread hlap hentry := by
    have hlt := (List.getElem?_eq_some_iff.mp hentry).1
    dsimp only at hread hlap ⊢
    rw [Function.update_of_ne (hslot seq hread hlt hlap)]
    exact h.kept seq a (by omega) hlap hentry
  recent i bucket hbucket := by
    dsimp only at hbucket
    by_cases hi : i = d.readIndex % d.size
    · rw [hi, Function.update_self] at hbucket
      cases hbucket
    · rw [Function.update_of_ne hi] at hbucket
      exact h.recent i bucket hbucket

theorem tryNext_end (h : Represents d l) (hread : l.read = l.entries.length) :
    d.tryNext.1 = none ∧ Represents d.tryNext.2 l := by
  have hswap := h.swap h.behind (Nat.le_refl _) fun seq hle hlt _ => absurd hle (by omega)
  rw [OneToOne.tryNext]
  cases hbucket : d.buffer (d.readIndex % d.size) with
  | none => exact ⟨rfl, h.read ▸ hswap⟩
  | some bucket =>
      have hlt := (h.recent _ _ hbucket).2.1
      dsimp only
      rw [if_pos (by rw [h.read]; omega)]
      exact ⟨rfl, h.read ▸ hswap⟩

theorem tryNext_represents (h : Represents d l) :
    d.tryNext.1 = (l.tryNext d.size).1 ∧ Represents d.tryNext.2 (l.tryNext d.size).2 := by
  rcases Nat.lt_or_ge l.read l.entries.length with hlt | hge
  · obtain ⟨a, hentry, htry⟩ := tryNext_entry h.positive hlt
    obtain ⟨hle, hstop, hlap⟩ := newest_bounds h.positive hlt
    have hmod : newest d.size l.read l.entries.length % d.size = l.read % d.size := newest_mod hlt
    have hslot : d.buffer (l.read % d.size) = some ⟨a, newest d.size l.read l.entries.length⟩ :=
      hmod ▸ h.kept _ a hle hlap hentry
    have hswap := h.swap (Nat.succ_le_of_lt hstop)
        (Nat.le_succ_of_le hle) fun seq hseq hseq' _ => by
      rw [h.read, ← hmod]
      exact (mod_ne hseq (by omega)).symm
    rw [htry]
    simp only [OneToOne.tryNext, h.read, hslot, if_neg (Nat.not_lt.mpr hle)] at hswap ⊢
    rcases Nat.eq_or_lt_of_le hle with heq | hgt
    · rw [← heq] at hswap ⊢
      rw [if_neg (Nat.lt_irrefl _), Nat.sub_self]
      exact ⟨rfl, hswap⟩
    · rw [if_pos hgt]
      exact ⟨rfl, hswap⟩
  · have hread := Nat.le_antisymm h.behind hge
    rw [Laps.tryNext_end hge]
    exact tryNext_end h hread

theorem tryNext_size (d : OneToOne α) : d.tryNext.2.size = d.size := by
  rw [OneToOne.tryNext]
  cases d.buffer (d.readIndex % d.size) with
  | none => rfl
  | some bucket =>
      dsimp only
      split_ifs <;> rfl

end refinement

section use

/-- A diode in use: what was written to it, what it gave out and how many
entries its alerts have counted. -/
structure Holds (d : OneToOne α) (written given : List α) (missed : Nat) : Prop where
  represents : Represents d ⟨written, d.readIndex⟩
  accounted : Accounted ⟨written, d.readIndex⟩ given missed

variable {d : OneToOne α} {written given : List α} {missed : Nat}

theorem newOneToOne_holds {size : Nat} (h : 0 < size) :
    Holds (newOneToOne size : OneToOne α) [] [] 0 :=
  ⟨newOneToOne_represents h, empty_accounted⟩

theorem set_holds (h : Holds d written given missed) (a : α) :
    Holds (d.set a) (written ++ [a]) given missed :=
  ⟨set_represents h.represents a, set_accounted h.accounted a⟩

theorem tryNext_log (h : Holds d written given missed) :
    (Log.tryNext d.size ⟨written, d.readIndex⟩).2 = ⟨written, d.tryNext.2.readIndex⟩ := by
  obtain ⟨_, hrepresents⟩ := tryNext_represents h.represents
  have hentries := @tryNext_entries α d.size ⟨written, d.readIndex⟩
  rw [hrepresents.read]
  exact congrArg (fun entries => Log.mk entries _) hentries

theorem tryNext_holds (h : Holds d written given missed) :
    Holds d.tryNext.2 written (given ++ (d.tryNext.1.map Prod.fst).toList)
      (missed + d.tryNext.1.elim 0 Prod.snd) := by
  obtain ⟨hnext, hrepresents⟩ := tryNext_represents h.represents
  have haccounted := tryNext_accounted h.represents.positive h.accounted
  rw [tryNext_log h] at hrepresents haccounted
  exact ⟨hrepresents, hnext ▸ haccounted⟩

theorem tryNext_in_order (h : Holds d written given missed)
    (hlap : written.length ≤ d.readIndex + d.size) :
    d.tryNext.1 = (written.drop d.readIndex).head?.map (fun a => (a, 0)) ∧
      written.drop d.tryNext.2.readIndex = (written.drop d.readIndex).tail := by
  obtain ⟨hnext, _⟩ := tryNext_represents h.represents
  have hunread := @tryNext_unread α d.size ⟨written, d.readIndex⟩ (by simp [Log.unread]; omega)
  rw [tryNext_log h, ← hnext] at hunread
  exact hunread

theorem Holds.perm (h : Holds d written given missed) : ∃ overwritten : List α,
    written.Perm (given ++ overwritten ++ written.drop d.readIndex) ∧
      overwritten.length = missed := by
  obtain ⟨overwritten, hperm⟩ := h.accounted.order.exists_perm_append
  have hcount := h.accounted.count
  have hbound := h.accounted.bound
  have hlength := hperm.length_eq
  simp only [List.length_take, List.length_append] at hlength hbound hcount
  refine ⟨overwritten, ?_, by omega⟩
  have hall := hperm.append_right (written.drop d.readIndex)
  rwa [List.take_append_drop] at hall

theorem count_of_empty (h : Holds d written given missed) (hnext : d.tryNext.1 = none) :
    given.length + missed = written.length := by
  have hcount := h.accounted.count
  have hbound := h.accounted.bound
  rcases Nat.lt_or_ge d.readIndex written.length with hlt | hge
  · obtain ⟨a, _, htry⟩ := @tryNext_entry α d.size ⟨written, d.readIndex⟩ h.represents.positive hlt
    rw [(tryNext_represents h.represents).1, htry] at hnext
    cases hnext
  · exact hcount.trans (Nat.le_antisymm hbound hge)

end use

end LogCache.Diode
