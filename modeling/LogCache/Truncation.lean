import LogCache.StoreTransitions

namespace LogCache.Truncation

open AvlTree Envelopes EnvelopeStore StoreSteps StoreTransitions

variable {s s' : Store} {heap : List StorageExpiration}

def expiration (p : Σ _ : String, Storage) : Option StorageExpiration :=
  p.2.tree.left.map fun q => ⟨q.1, p.1⟩

def minima (s : Store) : List StorageExpiration := s.storageIndex.entries.filterMap expiration

/-- The invariant of the truncation: the heap holds the oldest key of every
source, and nothing else. -/
structure HeapFor (s : Store) (heap : List StorageExpiration) : Prop where
  ordered : BinaryHeap.Ordered StorageExpiration.timestamp heap
  perm : heap.Perm (minima s)

theorem ordered_nil : BinaryHeap.Ordered StorageExpiration.timestamp [] :=
  fun _ _ h => absurd h (Nat.not_lt_zero _)

theorem buildHeapLoop_ok (rest : List (Σ _ : String, Storage))
    (hrest : ∀ p ∈ rest, 0 < p.2.tree.size)
    (ho : BinaryHeap.Ordered StorageExpiration.timestamp heap) :
    ∃ heap', Store.buildHeapLoop heap rest = .ok heap' ∧
      BinaryHeap.Ordered StorageExpiration.timestamp heap' ∧
        heap'.Perm (rest.filterMap expiration ++ heap) := by
  induction rest generalizing heap with
  | nil => exact ⟨heap, rfl, ho, .refl _⟩
  | cons p rest ih =>
      obtain ⟨q, hq⟩ :=
        Option.isSome_iff_exists.mp ((Tree.left_isSome_iff _).mpr (hrest p List.mem_cons_self))
      obtain ⟨heap', hok, ho', hp⟩ := ih (fun p hp => hrest p (List.mem_cons_of_mem _ hp))
        (BinaryHeap.push_ordered ho ⟨q.1, p.1⟩)
      refine ⟨heap', ?_, ho', ?_⟩
      · rw [Store.buildHeapLoop, hq]
        exact hok
      · rw [List.filterMap_cons, expiration, hq]
        refine hp.trans (((BinaryHeap.push_perm heap _).append_left _).trans ?_)
        exact List.perm_middle

theorem buildExpirationHeap_ok (hne : NonEmpty s) (order : SyncMap.RangeOrder String Storage) :
    ∃ heap, s.buildExpirationHeap order = .ok heap ∧ HeapFor s heap := by
  have hperm := order.perm s.storageIndex.entries
  have hpos : ∀ p ∈ order.visit s.storageIndex.entries, 0 < p.2.tree.size := by
    rintro ⟨sourceId, storage⟩ hp
    exact hne sourceId storage (SyncMap.mem_entries.mp (hperm.mem_iff.mp hp))
  obtain ⟨heap, hok, ho, hp⟩ := buildHeapLoop_ok _ hpos ordered_nil
  rw [List.append_nil] at hp
  exact ⟨heap, hok, ho, hp.trans (hperm.filterMap _)⟩

theorem mem_minima {x : StorageExpiration} (h : x ∈ minima s) :
    ∃ storage p, s.storageIndex.lookup x.sourceId = some storage ∧ storage.tree.left = some p ∧
      x = ⟨p.1, x.sourceId⟩ := by
  obtain ⟨⟨sourceId, storage⟩, hmem, hx⟩ := List.mem_filterMap.mp h
  obtain ⟨p, hp, rfl⟩ := Option.map_eq_some_iff.mp hx
  exact ⟨storage, p, SyncMap.mem_entries.mp hmem, hp, rfl⟩

theorem minima_of_lookup {sourceId : String} {storage : Storage} {p : Int64 × Envelope}
    (hlookup : s.storageIndex.lookup sourceId = some storage) (hleft : storage.tree.left = some p) :
    (minima s).Perm
      (⟨p.1, sourceId⟩ :: (s.storageIndex.erase sourceId).entries.filterMap expiration) := by
  have h := (SyncMap.entries_perm hlookup).filterMap expiration
  rwa [List.filterMap_cons, expiration, hleft] at h

theorem le_of_minima {x : StorageExpiration}
    (hx : ∀ y ∈ minima s, x.timestamp ≤ y.timestamp) {z : Entry} (hz : z ∈ entries s) :
    x.timestamp ≤ z.2.1 := by
  obtain ⟨sourceId, q⟩ := z
  obtain ⟨storage, hlookup, hq⟩ := mem_entries.mp hz
  obtain ⟨p, hp⟩ := Option.isSome_iff_exists.mp
    ((Tree.left_isSome_iff storage.tree).mpr
      (by rw [Tree.size_eq_length]; exact List.length_pos_of_mem hq))
  have hmem : (⟨p.1, sourceId⟩ : StorageExpiration) ∈ minima s :=
    (minima_of_lookup hlookup hp).mem_iff.mpr List.mem_cons_self
  exact (hx _ hmem).trans (Tree.left_le hp hq)

theorem HeapFor.stored (hheap : HeapFor s heap) {x : StorageExpiration} (hx : x ∈ heap) :
    ∃ p, (x.sourceId, p) ∈ entries s ∧ p.1 = x.timestamp := by
  obtain ⟨storage, p, hlookup, hleft, hp⟩ := mem_minima (hheap.perm.mem_iff.mp hx)
  exact ⟨p, mem_entries.mpr ⟨storage, hlookup, Tree.mem_of_left hleft⟩, by rw [hp]⟩

theorem HeapFor.ne_nil (hheap : HeapFor s heap) (hpos : 0 < size s) : heap ≠ [] := by
  rintro rfl
  rw [← length_entries] at hpos
  obtain ⟨⟨sourceId, q⟩, hz⟩ := List.exists_mem_of_length_pos hpos
  obtain ⟨storage, hlookup, hq⟩ := mem_entries.mp hz
  obtain ⟨p, hp⟩ := Option.isSome_iff_exists.mp
    ((Tree.left_isSome_iff storage.tree).mpr
      (by rw [Tree.size_eq_length]; exact List.length_pos_of_mem hq))
  have hperm := hheap.perm.trans (minima_of_lookup hlookup hp)
  exact List.not_perm_nil_cons _ _ hperm

theorem HeapFor.eq_nil_iff (hheap : HeapFor s heap) : heap = [] ↔ size s = 0 := by
  constructor
  · intro hnil
    by_contra hsize
    exact hheap.ne_nil (Nat.pos_of_ne_zero hsize) hnil
  · intro hsize
    rw [← length_entries, List.length_eq_zero_iff] at hsize
    apply List.eq_nil_iff_forall_not_mem.mpr
    intro x hx
    obtain ⟨p, hp, _⟩ := hheap.stored hx
    rw [hsize] at hp
    cases hp

theorem pruneStep_ok (hne : NonEmpty s) (hheap : HeapFor s heap) (hpos : 0 < size s) :
    ∃ sourceId p s' heap', s.pruneStep heap = .ok (s', heap') ∧ Removes s sourceId p s' ∧
      (∀ x ∈ entries s, p.1 ≤ x.2.1) ∧ HeapFor s' heap' := by
  have hnil : heap ≠ [] := hheap.ne_nil hpos
  obtain ⟨x, heap₁, hpop, hperm, ho, hmin⟩ := BinaryHeap.pop_spec hheap.ordered hnil
  have hx : x ∈ minima s := hheap.perm.mem_iff.mp (hperm.mem_iff.mpr List.mem_cons_self)
  obtain ⟨storage, p, hlookup, hleft, hxp⟩ := mem_minima hx
  obtain ⟨p', s', hleft', hrem, heq⟩ := removeOldestEnvelope_removes hlookup (hne _ _ hlookup)
  rw [hleft] at hleft'
  cases hleft'
  have hrest : heap₁.Perm ((s.storageIndex.erase x.sourceId).entries.filterMap expiration) := by
    have h := hperm.symm.trans (hheap.perm.trans (minima_of_lookup hlookup hleft))
    rw [← hxp] at h
    exact h.cons_inv
  have hoff : ∀ z ∈ entries s, p.1 ≤ z.2.1 := by
    intro z hz
    have := le_of_minima (fun y hy => hmin y (hheap.perm.mem_iff.mpr hy)) hz
    rwa [hxp] at this
  cases hrem with
  | last hl hleft₁ hsize =>
      rw [hlookup] at hl
      cases hl
      have hnone : (storage.tree.remove p.1).left = none := by
        rw [Tree.left_eq_none]
        have := Tree.size_remove_left hleft
        omega
      refine ⟨x.sourceId, p, _, heap₁, ?_, .last hlookup hleft hsize, hoff, ho, hrest⟩
      simp only [Store.pruneStep, hpop, heq, hnone]
      rfl
  | @more _ _ q hl hleft₁ hnext =>
      rw [hlookup] at hl
      cases hl
      refine ⟨x.sourceId, p, _, _, ?_, .more hlookup hleft hnext, hoff,
        BinaryHeap.push_ordered ho ⟨q.1, x.sourceId⟩, ?_⟩
      · simp only [Store.pruneStep, hpop, heq, hnext]
        rfl
      · refine (BinaryHeap.push_perm _ _).trans ?_
        rw [minima, AList.entries_insert, List.filterMap_cons, expiration, hnext]
        exact hrest.cons _

theorem pruneLoop_ok (n : Nat) (hne : NonEmpty s) (hheap : HeapFor s heap) (hn : n ≤ size s) :
    ∃ xs s' heap', Store.pruneLoop n s heap = .ok (s', heap') ∧ Prunes s xs s' ∧ xs.length = n ∧
      HeapFor s' heap' := by
  induction n generalizing s heap with
  | zero => exact ⟨[], s, heap, rfl, .done s, rfl, hheap⟩
  | succ n ih =>
      obtain ⟨sourceId, p, t, heap₁, hstep, hrem, hmin, hheap₁⟩ := pruneStep_ok hne hheap (by omega)
      have hsize := hrem.size
      obtain ⟨xs, s', heap', hloop, hxs, hlen, hheap'⟩ := ih (hrem.nonEmpty hne) hheap₁ (by omega)
      refine ⟨(sourceId, p) :: xs, s', heap', ?_, .step hrem hmin hxs,
        congrArg (· + 1) hlen, hheap'⟩
      rw [Store.pruneLoop, hstep]
      exact hloop

theorem toNat_numberToPrune (n : Nat) (quantity : Int) :
    (numberToPrune n quantity).toNat = min quantity.toNat n := by
  unfold numberToPrune
  split_ifs <;> omega

theorem truncate_prunes (hne : NonEmpty s) (hcount : s.counters.count = size s) {quantity : Int}
    (hq : quantity ≠ 0) (order : SyncMap.RangeOrder String Storage) :
    ∃ xs t heap heap', s.buildExpirationHeap order = .ok heap ∧ HeapFor s heap ∧
      Store.pruneLoop (min quantity.toNat (size s)) s heap = .ok (t, heap') ∧ HeapFor t heap' ∧
      Prunes s xs t ∧ xs.length = min quantity.toNat (size s) ∧
      s.truncate quantity order = .ok { t with
        counters := t.counters.afterPruning t.config
          (heap'.getLast?.map StorageExpiration.timestamp) } := by
  obtain ⟨heap, hbuild, hheap⟩ := buildExpirationHeap_ok hne order
  obtain ⟨xs, t, heap', hloop, hxs, hlen, hheap'⟩ :=
    pruneLoop_ok (min quantity.toNat (size s)) hne hheap (Nat.min_le_right _ _)
  refine ⟨xs, t, heap, heap', hbuild, hheap, hloop, hheap', hxs, hlen, ?_⟩
  rw [truncate_of_ne hq, hbuild, hcount, toNat_numberToPrune]
  change Store.pruneLoop _ s heap >>= _ = _
  rw [hloop]
  rfl

theorem truncate_ok (hne : NonEmpty s) (hcount : s.counters.count = size s) (quantity : Int)
    (order : SyncMap.RangeOrder String Storage) :
    ∃ xs t counters, s.truncate quantity order = .ok { t with counters := counters } ∧
      Prunes s xs t ∧
      xs.length = min quantity.toNat (size s) ∧ counters.count = t.counters.count ∧
      counters.expired = t.counters.expired := by
  by_cases hzero : quantity = 0
  · refine ⟨[], s, { s.counters with consecutiveTruncation := 0 }, ?_, .done s, ?_, rfl, rfl⟩
    · rw [Store.truncate, if_pos hzero]
    · rw [hzero]
      exact (Nat.zero_min _).symm
  · obtain ⟨xs, t, heap, heap', _, _, _, _, hxs, hlen, hok⟩ :=
      truncate_prunes hne hcount hzero order
    exact ⟨xs, t, _, hok, hxs, hlen, afterPruning_count _ _ _⟩

theorem Prunes.entries {xs : List Entry} (h : Prunes s xs s') :
    (entries s).Perm (xs ++ StoreTransitions.entries s') := by
  induction h with
  | done s => exact .refl _
  | step hr _ _ ih => exact hr.entries.trans (ih.cons _)

theorem Prunes.nonEmpty {xs : List Entry} (h : Prunes s xs s') (hne : NonEmpty s) :
    NonEmpty s' := by
  induction h with
  | done s => exact hne
  | step hr _ _ ih => exact ih (hr.nonEmpty hne)

theorem Prunes.oldest {xs : List Entry} (h : Prunes s xs s') {x y : Entry} (hx : x ∈ xs)
    (hy : y ∈ StoreTransitions.entries s') : x.2.1 ≤ y.2.1 := by
  induction h with
  | done s => cases hx
  | step hr hmin h ih =>
      rcases List.mem_cons.mp hx with rfl | hx
      · refine hmin y (hr.entries.mem_iff.mpr (List.mem_cons_of_mem _ ?_))
        exact (Prunes.entries h).mem_iff.mpr (List.mem_append_right _ hy)
      · exact ih hx hy

theorem Prunes.count {xs : List Entry} (h : Prunes s xs s') :
    s'.counters.count = s.counters.count - xs.length ∧
      s'.counters.expired = s.counters.expired + xs.length := by
  induction h with
  | done s => exact ⟨(sub_zero _).symm, rfl⟩
  | step hr _ _ ih =>
      simp only [hr.counters, removed] at ih
      rw [List.length_cons]
      exact ⟨by omega, by omega⟩

theorem mem_index_iff (hne : NonEmpty s) (sourceId : String) :
    sourceId ∈ s.storageIndex ↔ ∃ p, (sourceId, p) ∈ entries s := by
  rw [SyncMap.mem_iff_lookup]
  constructor
  · rintro ⟨storage, hlookup⟩
    have hpos := hne sourceId storage hlookup
    rw [Tree.size_eq_length] at hpos
    obtain ⟨p, hp⟩ := List.exists_mem_of_length_pos hpos
    exact ⟨p, mem_entries.mpr ⟨storage, hlookup, hp⟩⟩
  · rintro ⟨p, hp⟩
    obtain ⟨storage, hlookup, _⟩ := mem_entries.mp hp
    exact ⟨storage, hlookup⟩

theorem Prunes.dropped {xs : List Entry} (h : Prunes s xs s') (hne : NonEmpty s)
    (sourceId : String) :
    sourceId ∈ s'.storageIndex ↔
      sourceId ∈ s.storageIndex ∧ ¬ ∀ x ∈ StoreTransitions.entries s, x.1 = sourceId → x ∈ xs := by
  have hperm := Prunes.entries h
  rw [mem_index_iff (Prunes.nonEmpty h hne), mem_index_iff hne]
  constructor
  · rintro ⟨p, hp⟩
    have hps := hperm.mem_iff.mpr (List.mem_append_right _ hp)
    refine ⟨⟨p, hps⟩, fun hall => ?_⟩
    have hdis := (List.nodup_append'.mp (hperm.nodup_iff.mp (nodup_entries s))).2.2
    exact hdis (hall _ hps rfl) hp
  · rintro ⟨_, hnot⟩
    push Not at hnot
    obtain ⟨⟨_, p⟩, hp, rfl, hx⟩ := hnot
    exact ⟨p, (List.mem_append.mp (hperm.mem_iff.mp hp)).resolve_left hx⟩

/-- Truncation takes the `n` oldest keys of the whole store, or everything. -/
theorem truncate_removes_oldest (s : Store) (hne : NonEmpty s)
    (hcount : s.counters.count = size s) (n : Nat) (order : SyncMap.RangeOrder String Storage) :
    ∃ s' removed, s.truncate n order = .ok s' ∧
      removed.length = min n (size s) ∧
      (entries s).Perm (removed ++ entries s') ∧
      (∀ x ∈ removed, ∀ y ∈ entries s', x.2.1 ≤ y.2.1) ∧
      (∀ sourceId, sourceId ∈ s'.storageIndex ↔
        sourceId ∈ s.storageIndex ∧ ¬ ∀ x ∈ entries s, x.1 = sourceId → x ∈ removed) ∧
      s'.counters.count = s.counters.count - removed.length := by
  obtain ⟨xs, t, counters, hok, hxs, hlen, hc, _⟩ := truncate_ok hne hcount n order
  have hperm := Prunes.entries hxs
  have hdrop := Prunes.dropped hxs hne
  refine ⟨_, xs, hok, hlen, hperm, ?_, hdrop, ?_⟩
  · intro x hx y hy
    exact Prunes.oldest hxs hx hy
  · exact hc.trans (Prunes.count hxs).1

def twoSources : Store where
  config := ⟨2, 4000, 1⟩
  counters := ⟨2, 5, 0, 2, 0, 0⟩
  storageIndex := ((∅ : SyncMap.Map String Storage).insert "a"
    ⟨⟨0, 0, 5, 5⟩, Tree.new.put 5 (bare 5)⟩).insert "b"
    ⟨⟨0, 0, 7, 7⟩, Tree.new.put 7 (bare 7)⟩

theorem twoSources_nonEmpty : NonEmpty twoSources := by decide

theorem truncate_removes_oldest_twoSources :
    NonEmpty twoSources ∧ twoSources.counters.count = size twoSources ∧
      ∃ s', twoSources.truncate 1 .id = .ok s' ∧ s'.counters.count = 1 := by
  refine ⟨twoSources_nonEmpty, rfl, ?_⟩
  obtain ⟨s', removed, hok, hlen, _, _, _, hcount⟩ :=
    truncate_removes_oldest twoSources twoSources_nonEmpty rfl 1 .id
  refine ⟨s', hok, hcount.trans ?_⟩
  rw [hlen]
  rfl

end LogCache.Truncation
