import LogCache.Envelopes

namespace LogCache.MapOrders

open Envelopes

variable {β : Type}

/-- The order in which a `range` loop visits the entries of a map:
unspecified, but each entry once. -/
structure MapOrder (β : Type) where
  visit : GoMap β → List (Σ _ : String, β)
  entries : ∀ m, (visit m : Multiset (Σ _ : String, β)) = m.entries

noncomputable def MapOrder.any : MapOrder β :=
  ⟨fun m => m.entries.toList, fun m => m.entries.coe_toList⟩

section visit

variable {m : GoMap β} {k : String} {b : β}

theorem mem_visit (order : MapOrder β) {p : Σ _ : String, β} : p ∈ order.visit m ↔
    m.lookup p.1 = some p.2 := by
  rw [Finmap.lookup_eq_some_iff, ← order.entries m, Multiset.mem_coe]

theorem nodupKeys_visit (order : MapOrder β) (m : GoMap β) : (order.visit m).NodupKeys := by
  have hnodup := m.nodupKeys
  rw [← order.entries m] at hnodup
  exact hnodup

theorem visit_perm (order order' : MapOrder β) (m : GoMap β) :
    (order.visit m).Perm (order'.visit m) :=
  Multiset.coe_eq_coe.mp ((order.entries m).trans (order'.entries m).symm)

theorem exists_visit {xs : List (Σ _ : String, β)}
    (h : (xs : Multiset (Σ _ : String, β)) = m.entries) :
    ∃ order : MapOrder β, order.visit m = xs := by
  classical
  refine ⟨⟨fun m' => if m' = m then xs else m'.entries.toList, fun m' => ?_⟩, if_pos rfl⟩
  split_ifs with heq
  · rw [heq]
    exact h
  · exact m'.entries.coe_toList

theorem exists_visit_of_perm (order : MapOrder β) {xs : List (Σ _ : String, β)}
    (h : xs.Perm (order.visit m)) :
    ∃ order' : MapOrder β, order'.visit m = xs :=
  exists_visit ((Multiset.coe_eq_coe.mpr h).trans (order.entries m))

theorem exists_visit_cons (h : m.lookup k = some b) :
    ∃ (order : MapOrder β) (rest : List (Σ _ : String, β)), order.visit m = ⟨k, b⟩ :: rest := by
  have hmem : (⟨k, b⟩ : Σ _ : String, β) ∈ MapOrder.any.visit m := (mem_visit _).mpr h
  obtain ⟨pre, post, hsplit⟩ := List.append_of_mem hmem
  have hperm : (⟨k, b⟩ :: (pre ++ post)).Perm (MapOrder.any.visit m) := by
    rw [hsplit]
    exact List.perm_middle.symm
  obtain ⟨order, horder⟩ := exists_visit_of_perm _ hperm
  exact ⟨order, pre ++ post, horder⟩

theorem exists_visit_concat (h : m.lookup k = some b) :
    ∃ (order : MapOrder β) (rest : List (Σ _ : String, β)), order.visit m = rest ++ [⟨k, b⟩] := by
  obtain ⟨order, rest, horder⟩ := exists_visit_cons h
  have hperm : (rest ++ [(⟨k, b⟩ : Σ _ : String, β)]).Perm (order.visit m) := by
    rw [horder]
    exact List.perm_append_singleton _ rest
  obtain ⟨order', horder'⟩ := exists_visit_of_perm order hperm
  exact ⟨order', rest, horder'⟩

end visit

section insertAll

def insertAll (m : GoMap β) (entries : List (Σ _ : String, β)) : GoMap β :=
  entries.foldl (fun m p => m.insert p.1 p.2) m

theorem lookup_insert_eq (m : GoMap β) (k k' : String) (b : β) :
    (m.insert k b).lookup k' = if k' = k then some b else m.lookup k' := by
  split_ifs with h
  · rw [h, Finmap.lookup_insert]
  · exact Finmap.lookup_insert_of_ne _ h

theorem lookup_insertAll {entries : List (Σ _ : String, β)} (h : entries.NodupKeys) (m : GoMap β)
    (k : String) :
    (insertAll m entries).lookup k = (entries.dlookup k).or (m.lookup k) := by
  induction entries generalizing m with
  | nil => rfl
  | cons p entries ih =>
      obtain ⟨k', b⟩ := p
      rw [List.nodupKeys_cons] at h
      change (insertAll (m.insert k' b) entries).lookup k = _
      rw [ih h.2, lookup_insert_eq]
      split_ifs with hk
      · subst hk
        rw [List.dlookup_eq_none.mpr h.1, List.dlookup_cons_eq]
        rfl
      · rw [List.dlookup_cons_ne _ _ hk]

theorem dlookup_visit (order : MapOrder β) (m : GoMap β) (k : String) :
    (order.visit m).dlookup k = m.lookup k := by
  ext b
  rw [← Option.mem_def, List.mem_dlookup_iff (nodupKeys_visit order m), mem_visit]

theorem lookup_insertAll_visit (order : MapOrder β) (m m' : GoMap β) (k : String) :
    (insertAll m (order.visit m')).lookup k = (m'.lookup k).or (m.lookup k) := by
  rw [lookup_insertAll (nodupKeys_visit order m'), dlookup_visit]

end insertAll

section keys

theorem mem_keys_visit (order : MapOrder β) (m : GoMap β) (k : String) :
    k ∈ (order.visit m).map Sigma.fst ↔ (m.lookup k).isSome = true := by
  rw [← dlookup_visit order, List.dlookup_isSome]
  rfl

theorem isSome_lookup_insertKeys (xs : List (Σ _ : String, β)) (ids : GoMap Unit) (k : String) :
    ((xs.foldl (fun ids p => ids.insert p.1 ()) ids).lookup k).isSome =
      (decide (k ∈ xs.map Sigma.fst) || (ids.lookup k).isSome) := by
  induction xs generalizing ids with
  | nil => rfl
  | cons p xs ih =>
      rw [List.foldl_cons, ih, lookup_insert_eq, List.map_cons]
      by_cases hp : k = p.1
      · simp [hp]
      · have hmem : k ∈ p.1 :: xs.map Sigma.fst ↔ k ∈ xs.map Sigma.fst :=
          List.mem_cons.trans (or_iff_right hp)
        rw [if_neg hp, decide_eq_decide.mpr hmem]

theorem lookup_eraseKeys {γ : Type} (keyOf : γ → String) (xs : List γ) (m : GoMap β) (k : String) :
    (xs.foldl (fun m x => m.erase (keyOf x)) m).lookup k = if k ∈ xs.map keyOf then none
      else m.lookup k := by
  induction xs generalizing m with
  | nil => rfl
  | cons x xs ih =>
      rw [List.foldl_cons, ih, List.map_cons]
      by_cases hk : k = keyOf x
      · rw [if_pos (List.mem_cons.mpr (.inl hk)), hk, Finmap.lookup_erase, ite_self]
      · rw [Finmap.lookup_erase_ne hk, if_congr (List.mem_cons.trans (or_iff_right hk)) rfl rfl]

end keys

end LogCache.MapOrders
