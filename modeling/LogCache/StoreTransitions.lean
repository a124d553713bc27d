import LogCache.StoreSteps
import LogCache.Runs

namespace LogCache.StoreTransitions

open AvlTree Envelopes EnvelopeStore StoreSteps Runs

variable {s s' : Store} {sourceId : String} {storage : Storage}

abbrev Entry := String × Int64 × Envelope

/-- Everything stored, with its source and its key. -/
def entries (s : Store) : List Entry :=
  SyncMap.flatten (fun storage => storage.tree.entries) s.storageIndex

def size (s : Store) : Nat := SyncMap.total (fun storage => storage.tree.size) s.storageIndex

def NonEmpty (s : Store) : Prop :=
  ∀ sourceId storage, s.storageIndex.lookup sourceId = some storage → 0 < storage.tree.size

theorem nonEmpty_iff : NonEmpty s ↔ ∀ p ∈ s.storageIndex.entries, 0 < p.2.tree.size :=
  ⟨fun h p hp => h p.1 p.2 (SyncMap.mem_entries.mp hp),
    fun h sourceId storage hlookup => h ⟨sourceId, storage⟩ (SyncMap.mem_entries.mpr hlookup)⟩

instance (s : Store) : Decidable (NonEmpty s) := decidable_of_iff _ nonEmpty_iff.symm

theorem mem_entries {p : Int64 × Envelope} :
    (sourceId, p) ∈ entries s ↔ ∃ storage, s.storageIndex.lookup sourceId = some storage ∧
      p ∈ storage.tree.entries :=
  SyncMap.mem_flatten _

theorem length_entries (s : Store) : (entries s).length = size s := by
  rw [entries, SyncMap.length_flatten, size]
  simp only [Tree.size_eq_length]

theorem nodup_entries (s : Store) : (entries s).Nodup :=
  SyncMap.nodup_flatten _ (fun storage => storage.tree.entries_sorted.imp fun h he =>
    h.ne (congrArg Prod.fst he)) _

def storageFor (s : Store) (sourceId : String) : Storage :=
  (s.storageIndex.lookup sourceId).getD .new

def received (s : Store) : Counters := { s.counters with ingress := s.counters.ingress + 1 }

theorem put_eq (s : Store) (e : Envelope) (sourceId : String) :
    s.put e sourceId = (storageFor s sourceId).insertOrSwap s.config (received s) e >>= fun r =>
      .ok ⟨s.config, r.1, s.storageIndex.insert sourceId r.2⟩ := by
  rw [Store.put, Store.getOrInitializeStorage, storageFor]
  cases s.storageIndex.lookup sourceId with
  | some storage => rfl
  | none => simp only [AList.insert_insert]; rfl

theorem put_inserted {e : Envelope} (h : s.put e sourceId = .ok s') :
    ∃ counters' storage', Inserted s.config (received s)
      (storageFor s sourceId) e counters' storage' ∧
      s' = ⟨s.config, counters', s.storageIndex.insert sourceId storage'⟩ := by
  rw [put_eq] at h
  obtain ⟨r, hi, h⟩ := bind_ok h
  cases h
  exact ⟨r.1, r.2, insertOrSwap_inserted hi, rfl⟩

theorem put_nonEmpty {e : Envelope} (hne : NonEmpty s) (h : s.put e sourceId = .ok s') :
    NonEmpty s' := by
  obtain ⟨counters', storage', hi, rfl⟩ := put_inserted h
  exact SyncMap.forall_insert hi.size_pos fun src storage _ hlookup => hne src storage hlookup

theorem put_ok (e : Envelope)
    (h : (storageFor s sourceId).tree.size < s.config.maxPerSource ∨
      0 < (storageFor s sourceId).tree.size) :
    ∃ s', s.put e sourceId = .ok s' := by
  obtain ⟨counters', storage', hi, _⟩ :=
    insertOrSwap_ok s.config (received s) (storageFor s sourceId) e h
  rw [put_eq, hi]
  exact ⟨_, rfl⟩

/-- One removal of a truncation: the oldest entry `p` of a source goes, and the
source with it when that was the last one. -/
inductive Removes (s : Store) (sourceId : String) : Int64 × Envelope → Store → Prop
  | last {storage : Storage} {p : Int64 × Envelope}
    (hlookup : s.storageIndex.lookup sourceId = some storage)
      (hleft : storage.tree.left = some p) (hsize : storage.tree.size = 1) :
      Removes s sourceId p ⟨s.config, removed s.counters, s.storageIndex.erase sourceId⟩
  | more {storage : Storage} {p q : Int64 × Envelope}
    (hlookup : s.storageIndex.lookup sourceId = some storage)
      (hleft : storage.tree.left = some p) (hnext : (storage.tree.remove p.1).left = some q) :
      Removes s sourceId p ⟨s.config, removed s.counters, s.storageIndex.insert sourceId
        { metaInfo := { storage.metaInfo with
            expired := storage.metaInfo.expired + 1, oldestTimestamp := q.1 }
          tree := storage.tree.remove p.1 }⟩

theorem removeOldestEnvelope_removes (hlookup : s.storageIndex.lookup sourceId = some storage)
    (hsize : 0 < storage.tree.size) :
    ∃ p s', storage.tree.left = some p ∧ Removes s sourceId p s' ∧
      s.removeOldestEnvelope sourceId = .ok (s', (storage.tree.remove p.1).left.map Prod.fst) := by
  obtain ⟨p, hleft, ⟨hone, hr⟩ | ⟨q, hnext, hr⟩⟩ := removeOldest_cases s.counters hsize
  · refine ⟨p, _, hleft, .last hlookup hleft hone, ?_⟩
    have hnone : (storage.tree.remove p.1).left = none := by
      rw [Tree.left_eq_none]
      have := Tree.size_remove_left hleft
      omega
    simp only [Store.removeOldestEnvelope, hlookup, hr, hnone]
    rfl
  · refine ⟨p, _, hleft, .more hlookup hleft hnext, ?_⟩
    simp only [Store.removeOldestEnvelope, hlookup, hr, hnext]
    rfl

theorem removeOldestEnvelope_ok {o : Option Int64}
    (h : s.removeOldestEnvelope sourceId = .ok (s', o)) :
    s' = s ∨ ∃ p, Removes s sourceId p s' := by
  cases hlookup : s.storageIndex.lookup sourceId with
  | none =>
      rw [Store.removeOldestEnvelope, hlookup] at h
      cases h
      exact Or.inl rfl
  | some storage =>
      by_cases hsize : storage.tree.size = 0
      · rw [Store.removeOldestEnvelope, hlookup] at h
        simp only [removeOldest_empty hsize] at h
        cases h
        exact Or.inl rfl
      · obtain ⟨p, t, _, ht, he⟩ := removeOldestEnvelope_removes hlookup (Nat.pos_of_ne_zero hsize)
        rw [h] at he
        cases he
        exact Or.inr ⟨p, ht⟩

theorem Removes.config {p : Int64 × Envelope} (h : Removes s sourceId p s') :
    s'.config = s.config := by
  cases h <;> rfl

theorem Removes.counters {p : Int64 × Envelope} (h : Removes s sourceId p s') :
    s'.counters = removed s.counters := by
  cases h <;> rfl

theorem Removes.lookup {p : Int64 × Envelope} (h : Removes s sourceId p s') {src : String}
    {storage' : Storage} (hlookup' : s'.storageIndex.lookup src = some storage') :
    s.storageIndex.lookup src = some storage' ∨
      src = sourceId ∧ ∃ storage, s.storageIndex.lookup src = some storage ∧
        storage.tree.entries = p :: storage'.tree.entries ∧ 0 < storage'.tree.size ∧
        storage'.metaInfo.expired = storage.metaInfo.expired + 1 ∧
        storage'.metaInfo.newestTimestamp = storage.metaInfo.newestTimestamp := by
  cases h with
  | last hlookup hleft hsize =>
      rw [SyncMap.lookup_erase_eq] at hlookup'
      split_ifs at hlookup' with hs
      exact Or.inl hlookup'
  | more hlookup hleft hnext =>
      rw [SyncMap.lookup_insert_eq] at hlookup'
      split_ifs at hlookup' with hs
      · cases hlookup'
        subst hs
        refine Or.inr ⟨rfl, _, hlookup, Tree.entries_remove_left hleft, ?_, rfl, rfl⟩
        rw [← Tree.left_isSome_iff, hnext]
        rfl
      · exact Or.inl hlookup'

theorem Removes.nonEmpty {p : Int64 × Envelope} (h : Removes s sourceId p s') (hne : NonEmpty s) :
    NonEmpty s' := by
  intro src storage' hlookup'
  rcases h.lookup hlookup' with hl | ⟨_, _, _, _, hpos, _⟩
  · exact hne src storage' hl
  · exact hpos

theorem Removes.entries {p : Int64 × Envelope} (h : Removes s sourceId p s') :
    (entries s).Perm ((sourceId, p) :: entries s') := by
  cases h with
  | @last storage _ hlookup hleft hsize =>
      have he : (storage.tree.remove p.1).entries = [] := by
        apply List.eq_nil_of_length_eq_zero
        rw [← Tree.size_eq_length]
        have := Tree.size_remove_left hleft
        omega
      have hperm := SyncMap.flatten_of_lookup
          (fun storage : Storage => storage.tree.entries) hlookup
      rw [Tree.entries_remove_left hleft, he] at hperm
      exact hperm
  | @more storage _ q hlookup hleft hnext =>
      have hperm := SyncMap.flatten_of_lookup
          (fun storage : Storage => storage.tree.entries) hlookup
      rw [Tree.entries_remove_left hleft] at hperm
      rw [StoreTransitions.entries, StoreTransitions.entries, SyncMap.flatten_insert]
      exact hperm

theorem Removes.size {p : Int64 × Envelope} (h : Removes s sourceId p s') :
    StoreTransitions.size s = StoreTransitions.size s' + 1 := by
  rw [← length_entries, ← length_entries, h.entries.length_eq, List.length_cons]

/-- Any number of removals, each taking the oldest key of the whole store. -/
inductive Prunes : Store → List Entry → Store → Prop
  | done (s : Store) : Prunes s [] s
  | step {s s' s'' : Store} {sourceId : String} {p : Int64 × Envelope} {xs : List Entry}
      (hr : Removes s sourceId p s') (hmin : ∀ x ∈ entries s, p.1 ≤ x.2.1) (h : Prunes s' xs s'') :
      Prunes s ((sourceId, p) :: xs) s''

theorem pruneLoop_invariant {I : Store → Prop}
    (hstep : ∀ s sourceId p s', I s → Removes s sourceId p s' → I s') {n : Nat}
    {heap heap' : List StorageExpiration} (hs : I s)
    (h : Store.pruneLoop n s heap = .ok (s', heap')) : I s' := by
  induction n generalizing s heap with
  | zero => cases h; exact hs
  | succ n ih =>
      rw [Store.pruneLoop, Store.pruneStep] at h
      cases hpop : BinaryHeap.pop StorageExpiration.timestamp heap with
      | none => rw [hpop] at h; cases h
      | some r =>
          simp only [hpop] at h
          cases hrem : s.removeOldestEnvelope r.1.sourceId with
          | error e => rw [hrem] at h; cases h
          | ok t =>
              obtain ⟨t, o⟩ := t
              have ht : I t := by
                rcases removeOldestEnvelope_ok hrem with rfl | ⟨p, hp⟩
                · exact hs
                · exact hstep s _ p t hs hp
              rw [hrem] at h
              cases o with
              | none => exact ih ht h
              | some new => exact ih ht h

theorem truncate_of_ne {quantity : Int} {order : SyncMap.RangeOrder String Storage}
    (h : quantity ≠ 0) :
    s.truncate quantity order = s.buildExpirationHeap order >>= fun heap =>
      Store.pruneLoop (numberToPrune s.counters.count quantity).toNat s heap >>= fun r =>
        .ok { r.1 with
          counters := r.1.counters.afterPruning r.1.config
            (r.2.getLast?.map StorageExpiration.timestamp) } := by
  rw [Store.truncate, if_neg h]
  rfl

theorem truncate_invariant {I : Store → Prop}
    (hstep : ∀ s sourceId p s', I s → Removes s sourceId p s' → I s')
    (hcounters : ∀ (s : Store) counters, I s → counters.count = s.counters.count →
      counters.expired = s.counters.expired → I { s with counters := counters })
    {quantity : Int} {order : SyncMap.RangeOrder String Storage} (hs : I s)
    (h : s.truncate quantity order = .ok s') : I s' := by
  by_cases hzero : quantity = 0
  · rw [Store.truncate, if_pos hzero] at h
    cases h
    exact hcounters s _ hs rfl rfl
  · rw [truncate_of_ne hzero] at h
    obtain ⟨heap, _, h⟩ := bind_ok h
    obtain ⟨⟨t, heap'⟩, hloop, h⟩ := bind_ok h
    cases h
    have hc := afterPruning_count t.config t.counters
        (heap'.getLast?.map StorageExpiration.timestamp)
    exact hcounters t _ (pruneLoop_invariant hstep hs hloop) hc.1 hc.2

theorem exec_config {op : Op} (h : exec s op = .ok s') : s'.config = s.config := by
  cases op with
  | put e sourceId =>
      obtain ⟨_, _, _, rfl⟩ := put_inserted h
      rfl
  | truncate quantity order =>
      exact truncate_invariant (I := fun t => t.config = s.config)
        (fun _ _ _ _ hs hr => hr.config.trans hs)
        (fun _ _ hs _ _ => hs) rfl h

section storageFor

theorem storageFor_insert (s : Store) (config : Config) (counters : Counters) (sourceId : String)
    (storage : Storage) (src : String) :
    storageFor ⟨config, counters, s.storageIndex.insert sourceId storage⟩ src =
      if src = sourceId then storage else storageFor s src := by
  rw [storageFor, SyncMap.lookup_insert_eq]
  split_ifs <;> rfl

theorem storageFor_of_lookup {storage : Storage}
    (hlookup : s.storageIndex.lookup sourceId = some storage) :
    storageFor s sourceId = storage := by
  rw [storageFor, hlookup]
  rfl

theorem storageFor_erase (s : Store) (config : Config) (counters : Counters)
    (sourceId src : String) :
    storageFor ⟨config, counters, s.storageIndex.erase sourceId⟩ src =
      if src = sourceId then .new else storageFor s src := by
  rw [storageFor, SyncMap.lookup_erase_eq]
  split_ifs <;> rfl

theorem Removes.remaining {src : String} {p : Int64 × Envelope} (hr : Removes s src p s')
    (sourceId : String) :
    (storageFor s' sourceId).tree.entries =
      if sourceId = src then (storageFor s sourceId).tree.entries.tail
      else (storageFor s sourceId).tree.entries := by
  cases hr with
  | @last storage _ hlookup hleft hsize =>
      rw [storageFor_erase]
      split_ifs with hs
      · subst hs
        have hlen : storage.tree.entries.tail.length = 0 := by
          rw [List.length_tail, ← Tree.size_eq_length, hsize]
        rw [storageFor_of_lookup hlookup, List.eq_nil_of_length_eq_zero hlen]
        rfl
      · rfl
  | more hlookup hleft hnext =>
      rw [storageFor_insert]
      split_ifs with hs
      · subst hs
        rw [storageFor_of_lookup hlookup, Tree.entries_remove_left hleft, List.tail_cons]
      · rfl

theorem Removes.suffix {src : String} {p : Int64 × Envelope} (hr : Removes s src p s')
    (sourceId : String) :
    (storageFor s' sourceId).tree.entries <:+ (storageFor s sourceId).tree.entries := by
  rw [hr.remaining]
  split_ifs
  · exact List.tail_suffix _
  · exact List.suffix_rfl

theorem truncate_suffix {quantity : Int} {order : SyncMap.RangeOrder String Storage}
    (h : s.truncate quantity order = .ok s') (sourceId : String) :
    (storageFor s' sourceId).tree.entries <:+ (storageFor s sourceId).tree.entries :=
  truncate_invariant (I := fun t => (storageFor t sourceId).tree.entries <:+
    (storageFor s sourceId).tree.entries) (fun _ _ _ _ ht hr => (hr.suffix sourceId).trans ht)
    (fun _ _ ht _ _ => ht) List.suffix_rfl h

end storageFor

end LogCache.StoreTransitions
