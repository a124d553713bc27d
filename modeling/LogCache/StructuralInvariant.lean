import LogCache.Accounting

namespace LogCache.StructuralInvariant

open AvlTree Envelopes EnvelopeStore StoreSteps StoreTransitions Truncation Runs

variable {s s' : Store} {heap : List StorageExpiration}

structure Bounded (s : Store) : Prop where
  capacity : 1 ≤ s.config.maxPerSource
  nonEmpty : NonEmpty s
  bound : ∀ sourceId storage, s.storageIndex.lookup sourceId = some storage →
    (storage.tree.size : Int) ≤ s.config.maxPerSource

theorem newStore_bounded {maxPerSource : Int} (hmax : 1 ≤ maxPerSource) (prunesPerGC : Int) :
    Bounded (newStore maxPerSource prunesPerGC) where
  capacity := hmax
  nonEmpty _ _ h := by cases h
  bound _ _ h := by cases h

theorem Bounded.storageFor_le (hs : Bounded s) (sourceId : String) :
    ((storageFor s sourceId).tree.size : Int) ≤ s.config.maxPerSource := by
  rw [storageFor]
  cases hlookup : s.storageIndex.lookup sourceId with
  | none => exact Int.le_of_lt (Int.lt_of_lt_of_le Int.zero_lt_one hs.capacity)
  | some storage => exact hs.bound sourceId storage hlookup

theorem roomFor_lt {config : Config} {tree : Tree Int64 Envelope} (hmax : 1 ≤ config.maxPerSource)
    (hsize : (tree.size : Int) ≤ config.maxPerSource) :
    ((roomFor config tree).size : Int) < config.maxPerSource := by
  have hlen := congrArg List.length (roomFor_entries config tree)
  rw [List.length_append, ← Tree.size_eq_length, ← Tree.size_eq_length] at hlen
  split_ifs at hlen with hfull
  · have hpos : 0 < tree.size := by omega
    obtain ⟨p, hp⟩ := Option.isSome_iff_exists.mp ((Tree.left_isSome_iff tree).mpr hpos)
    rw [hp, Option.toList_some, List.length_singleton] at hlen
    omega
  · rw [List.length_nil] at hlen
    omega

theorem Inserted.size_le {config : Config} {counters counters' : Counters}
    {storage storage' : Storage} {e : Envelope}
    (hi : Inserted config counters storage e counters' storage') :
    storage'.tree.size ≤ (roomFor config storage.tree).size + 1 := by
  by_cases hfree : FreeKey config (roomFor config storage.tree) e.timestamp
  · exact (hi.size hfree).le
  · exact (hi.size_of_not_free hfree).le.trans (Nat.le_succ _)

theorem put_bounded {e : Envelope} {sourceId : String} (hs : Bounded s)
    (h : s.put e sourceId = .ok s') :
    Bounded s' := by
  have hne := put_nonEmpty hs.nonEmpty h
  obtain ⟨counters', storage', hi, rfl⟩ := put_inserted h
  have hroom := roomFor_lt hs.capacity (hs.storageFor_le sourceId)
  have hsize := Inserted.size_le hi
  refine ⟨hs.capacity, hne, ?_⟩
  refine SyncMap.forall_insert ?_ fun src storage _ hlookup => hs.bound src storage hlookup
  dsimp only
  omega

theorem Removes.bounded {sourceId : String} {p : Int64 × Envelope} (hs : Bounded s)
    (hr : Removes s sourceId p s') :
    Bounded s' := by
  refine ⟨hr.config ▸ hs.capacity, hr.nonEmpty hs.nonEmpty, ?_⟩
  intro src storage hlookup
  rw [hr.config]
  rcases hr.lookup hlookup with hl | ⟨_, before, hl, hentries, _⟩
  · exact hs.bound src storage hl
  · have hbefore := hs.bound src before hl
    rw [Tree.size_eq_length, hentries, List.length_cons, ← Tree.size_eq_length] at hbefore
    omega

theorem exec_bounded {op : Op} (hs : Bounded s) (h : exec s op = .ok s') : Bounded s' := by
  cases op with
  | put e sourceId => exact put_bounded hs h
  | truncate quantity order =>
      exact truncate_invariant (I := Bounded) (fun _ _ _ _ hs hr => Removes.bounded hs hr)
        (fun _ _ hs _ _ => ⟨hs.capacity, hs.nonEmpty, hs.bound⟩) hs h

theorem pruneStep_of_size_zero (hheap : HeapFor s heap) (hsize : size s = 0) :
    s.pruneStep heap = .error .heapEmpty := by
  rw [hheap.eq_nil_iff.mpr hsize, Store.pruneStep, BinaryHeap.pop_nil]

theorem pruneLoop_le {n : Nat} {heap' : List StorageExpiration} (hne : NonEmpty s)
    (hheap : HeapFor s heap) (h : Store.pruneLoop n s heap = .ok (s', heap')) : n ≤ size s := by
  induction n generalizing s heap with
  | zero => exact Nat.zero_le _
  | succ n ih =>
      rw [Store.pruneLoop] at h
      rcases Nat.eq_zero_or_pos (size s) with hzero | hpos
      · rw [pruneStep_of_size_zero hheap hzero] at h
        cases h
      · obtain ⟨sourceId, p, t, heap₁, hstep, hrem, _, hheap₁⟩ := pruneStep_ok hne hheap hpos
        rw [hstep] at h
        have hle := ih (hrem.nonEmpty hne) hheap₁ h
        have hsize := hrem.size
        omega

theorem pruneLoop_error {p : Panic} (n : Nat) (hne : NonEmpty s) (hheap : HeapFor s heap)
    (h : Store.pruneLoop n s heap = .error p) : p = .heapEmpty := by
  induction n generalizing s heap with
  | zero => cases h
  | succ n ih =>
      rw [Store.pruneLoop] at h
      rcases Nat.eq_zero_or_pos (size s) with hzero | hpos
      · rw [pruneStep_of_size_zero hheap hzero] at h
        cases h
        rfl
      · obtain ⟨sourceId, q, t, heap', hstep, hrem, _, hheap'⟩ := pruneStep_ok hne hheap hpos
        rw [hstep] at h
        exact ih (hrem.nonEmpty hne) hheap' h

/-- No operation looks at the left end of an empty tree. What a truncation can
still meet is a count that is larger than the store. -/
theorem exec_error {op : Op} {p : Panic} (hs : Bounded s) (h : exec s op = .error p) :
    p = .heapEmpty := by
  cases op with
  | put e sourceId =>
      obtain ⟨s', hput⟩ := put_ok e (Accounting.storageFor_size hs.capacity sourceId hs.nonEmpty)
      rw [exec, hput] at h
      cases h
  | truncate quantity order =>
      rw [exec] at h
      by_cases hzero : quantity = 0
      · rw [Store.truncate, if_pos hzero] at h
        cases h
      · obtain ⟨heap, hbuild, hheap⟩ := buildExpirationHeap_ok hs.nonEmpty order
        rw [truncate_of_ne hzero, hbuild] at h
        change Store.pruneLoop _ s heap >>= _ = _ at h
        cases hloop : Store.pruneLoop (numberToPrune s.counters.count quantity).toNat s heap with
        | ok r =>
            rw [hloop] at h
            cases h
        | error p' =>
            rw [hloop] at h
            cases h
            exact pruneLoop_error _ hs.nonEmpty hheap hloop

theorem put_stores {e : Envelope} {sourceId : String} (h : s.put e sourceId = .ok s') :
    (∃ storage, s'.storageIndex.lookup sourceId = some storage ∧
      ∃ key, (key, e) ∈ storage.tree.entries) ∧
      ∀ other, other ≠ sourceId → s'.storageIndex.lookup other = s.storageIndex.lookup other := by
  obtain ⟨counters', storage', hi, rfl⟩ := put_inserted h
  exact ⟨⟨storage', AList.lookup_insert _, _, hi.stores⟩,
    fun other hne => AList.lookup_insert_ne hne⟩

/-- After every completed operation the trees are within their bounds, no
operation can meet an empty tree, and a Put stores its envelope and nothing
else. -/
theorem run_bounded (maxPerSource prunesPerGC : Int) (hmax : 1 ≤ maxPerSource)
    (ops : List Op) (s : Store) (hrun : run exec (newStore maxPerSource prunesPerGC) ops = .ok s) :
    (∀ sourceId storage, s.storageIndex.lookup sourceId = some storage →
      0 < storage.tree.size ∧ (storage.tree.size : Int) ≤ maxPerSource) ∧
    (∀ op, exec s op ≠ .error .nilDereference) ∧
    ∀ e sourceId, ∃ s', s.put e sourceId = .ok s' ∧
      (∃ storage, s'.storageIndex.lookup sourceId = some storage ∧
        ∃ key, (key, e) ∈ storage.tree.entries) ∧
      ∀ other, other ≠ sourceId → s'.storageIndex.lookup other = s.storageIndex.lookup other := by
  have hs : Bounded s ∧ s.config.maxPerSource = maxPerSource := by
    refine run_invariant (I := fun t => Bounded t ∧ t.config.maxPerSource = maxPerSource) ?_
      ⟨newStore_bounded hmax prunesPerGC, rfl⟩ (along_of_forall (fun _ _ => trivial) _ _) hrun
    intro t op t' ht _ hstep
    exact ⟨exec_bounded ht.1 hstep, (congrArg Config.maxPerSource (exec_config hstep)).trans ht.2⟩
  obtain ⟨hs, hconfig⟩ := hs
  refine ⟨?_, ?_, ?_⟩
  · intro sourceId storage hlookup
    exact ⟨hs.nonEmpty sourceId storage hlookup, hconfig ▸ hs.bound sourceId storage hlookup⟩
  · intro op hop
    cases exec_error hs hop
  · intro e sourceId
    obtain ⟨s', hput⟩ := put_ok e (Accounting.storageFor_size hs.capacity sourceId hs.nonEmpty)
    exact ⟨s', hput, put_stores hput⟩

theorem run_bounded_one_place :
    ∃ s, run exec (newStore 1 1) [.put (bare 2) "a", .put (bare 1) "a", .truncate 1 .id,
      .put (bare 0) "a"] = .ok s ∧
      exec s (.truncate 1 .id) ≠ .error .nilDereference := by
  obtain ⟨s, hrun⟩ : ∃ s, run exec (newStore 1 1)
      [.put (bare 2) "a", .put (bare 1) "a", .truncate 1 .id, .put (bare 0) "a"] = .ok s :=
    exists_of_isOk (by decide +kernel)
  exact ⟨s, hrun, (run_bounded 1 1 le_rfl _ s hrun).2.1 _⟩

end LogCache.StructuralInvariant
