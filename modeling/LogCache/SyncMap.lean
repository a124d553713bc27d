import Mathlib.Data.List.AList
import Mathlib.Algebra.BigOperators.Group.List.Basic
import Mathlib.Algebra.GroupWithZero.Nat

namespace LogCache.SyncMap

variable {κ β : Type} [DecidableEq κ]

abbrev Map (κ β : Type) := AList fun _ : κ => β

/-- The order in which `Range` visits the entries: unspecified, but each
entry once. -/
structure RangeOrder (κ β : Type) where
  visit : List (Σ _ : κ, β) → List (Σ _ : κ, β)
  perm : ∀ xs, (visit xs).Perm xs

def RangeOrder.id : RangeOrder κ β := ⟨fun xs => xs, fun _ => .refl _⟩

omit [DecidableEq κ] in
theorem RangeOrder.exists_visit {xs ys : List (Σ _ : κ, β)} (h : ys.Perm xs) :
    ∃ order : RangeOrder κ β, order.visit xs = ys := by
  classical
  refine ⟨⟨fun zs => if zs = xs then ys else zs, fun zs => ?_⟩, if_pos rfl⟩
  split_ifs with heq
  · rw [heq]
    exact h
  · exact .refl _

theorem entries_perm {m : Map κ β} {k : κ} {b : β} (h : m.lookup k = some b) :
    m.entries.Perm (⟨k, b⟩ :: (m.erase k).entries) := by
  have hk : k ∈ m.entries.keys := by
    rw [← List.dlookup_isSome, ← AList.lookup, h]
    rfl
  obtain ⟨b', l₁, l₂, hn, he, hr⟩ := List.exists_of_kerase hk
  have hb : b' = b := by
    have hm : (⟨k, b'⟩ : Σ _ : κ, β) ∈ m.entries := by rw [he]; simp
    have := List.mem_dlookup m.nodupKeys hm
    rw [AList.lookup] at h
    rw [Option.mem_def, h] at this
    exact (Option.some.inj this).symm
  subst hb
  have herase : (m.erase k).entries = l₁ ++ l₂ := hr
  rw [herase, he]
  exact List.perm_middle

def total (f : β → Nat) (m : Map κ β) : Nat := (m.entries.map (fun p => f p.2)).sum

omit [DecidableEq κ] in
theorem total_empty (f : β → Nat) : total f (∅ : Map κ β) = 0 := rfl

theorem total_insert (f : β → Nat) (m : Map κ β) (k : κ) (b : β) :
    total f (m.insert k b) = f b + total f (m.erase k) := by
  rw [total, AList.entries_insert]
  rfl

theorem total_of_lookup (f : β → Nat) {m : Map κ β} {k : κ} {b : β} (h : m.lookup k = some b) :
    total f m = f b + total f (m.erase k) := by
  rw [total, ((entries_perm h).map _).sum_eq]
  rfl

theorem total_congr {f g : β → Nat} {m : Map κ β} (h : ∀ k b, m.lookup k = some b → f b = g b) :
    total f m = total g m := by
  rw [total, total]
  congr 1
  apply List.map_congr_left
  rintro ⟨k, b⟩ hp
  exact h k b (AList.mem_lookup_iff.mpr hp)

theorem erase_of_lookup_none {m : Map κ β} {k : κ} (h : m.lookup k = none) : m.erase k = m := by
  apply AList.ext
  exact List.kerase_of_notMem_keys (AList.lookup_eq_none.mp h)

theorem total_insert_new (f : β → Nat) {m : Map κ β} {k : κ} (h : m.lookup k = none) (b : β) :
    total f (m.insert k b) = f b + total f m := by
  rw [total_insert, erase_of_lookup_none h]

theorem lookup_insert_eq (m : Map κ β) (k k' : κ) (b : β) :
    (m.insert k b).lookup k' = if k' = k then some b else m.lookup k' := by
  split_ifs with h
  · subst h
    exact AList.lookup_insert m
  · exact AList.lookup_insert_ne h

theorem forall_insert {P : κ → β → Prop} {m : Map κ β} {k : κ} {b : β} (hnew : P k b)
    (hold : ∀ k' b', k' ≠ k → m.lookup k' = some b' → P k' b') :
    ∀ k' b', (m.insert k b).lookup k' = some b' → P k' b' := by
  intro k' b' h
  rw [lookup_insert_eq] at h
  split_ifs at h with hk
  · cases h
    exact hk ▸ hnew
  · exact hold k' b' hk h

theorem lookup_erase_eq (m : Map κ β) (k k' : κ) :
    (m.erase k).lookup k' = if k' = k then none else m.lookup k' := by
  split_ifs with h
  · subst h
    exact AList.lookup_erase _ m
  · exact AList.lookup_erase_ne h

theorem lookup_erase_eq_some {m : Map κ β} {k k' : κ} {b : β} :
    (m.erase k).lookup k' = some b ↔ k' ≠ k ∧ m.lookup k' = some b := by
  rw [lookup_erase_eq]
  by_cases h : k' = k <;> simp [h]

theorem mem_entries {m : Map κ β} {k : κ} {b : β} : (⟨k, b⟩ : Σ _ : κ, β) ∈ m.entries ↔
    m.lookup k = some b :=
  AList.mem_lookup_iff.symm

theorem mem_iff_lookup {m : Map κ β} {k : κ} : k ∈ m ↔ ∃ b, m.lookup k = some b := by
  rw [← AList.lookup_isSome, Option.isSome_iff_exists]

section flatten

variable {γ : Type} (f : β → List γ)

def flatten (m : Map κ β) : List (κ × γ) := m.entries.flatMap (fun p => (f p.2).map (Prod.mk p.1))

theorem mem_flatten {m : Map κ β} {k : κ} {x : γ} :
    (k, x) ∈ flatten f m ↔ ∃ b, m.lookup k = some b ∧ x ∈ f b := by
  rw [flatten, List.mem_flatMap]
  constructor
  · rintro ⟨⟨k', b⟩, hp, hx⟩
    obtain ⟨y, hy, he⟩ := List.mem_map.mp hx
    cases he
    exact ⟨b, mem_entries.mp hp, hy⟩
  · rintro ⟨b, hb, hx⟩
    exact ⟨⟨k, b⟩, mem_entries.mpr hb, List.mem_map_of_mem hx⟩

theorem flatten_insert (m : Map κ β) (k : κ) (b : β) :
    flatten f (m.insert k b) = (f b).map (Prod.mk k) ++ flatten f (m.erase k) := by
  rw [flatten, AList.entries_insert]
  rfl

theorem flatten_of_lookup {m : Map κ β} {k : κ} {b : β} (h : m.lookup k = some b) :
    (flatten f m).Perm ((f b).map (Prod.mk k) ++ flatten f (m.erase k)) :=
  (entries_perm h).flatMap_right _

omit [DecidableEq κ] in
theorem length_flatten (m : Map κ β) : (flatten f m).length = total (fun b => (f b).length) m := by
  rw [flatten, List.length_flatMap, total]
  simp

omit [DecidableEq κ] in
theorem nodup_flatten (hf : ∀ b, (f b).Nodup) (m : Map κ β) : (flatten f m).Nodup := by
  rw [flatten, List.nodup_flatMap]
  constructor
  · rintro ⟨k, b⟩ _
    exact (hf b).map fun x y hxy => (Prod.mk.inj hxy).2
  · refine List.Pairwise.imp ?_ (List.nodupKeys_iff_pairwise.mp m.nodupKeys)
    rintro ⟨k, b⟩ ⟨k', b'⟩ hne ⟨k'', x⟩ h h'
    obtain ⟨_, _, he⟩ := List.mem_map.mp h
    obtain ⟨_, _, he'⟩ := List.mem_map.mp h'
    cases he
    cases he'
    exact hne rfl

end flatten

end LogCache.SyncMap
