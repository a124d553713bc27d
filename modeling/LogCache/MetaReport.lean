import LogCache.UnfudgedStore
import Mathlib.Order.Bounds.Basic

namespace LogCache.EnvelopeStore

open Envelopes

def Store.metaRange (s : Store) (order : SyncMap.RangeOrder String Storage) :
    SyncMap.Map String MetaInfo :=
  (order.visit s.storageIndex.entries).foldl (fun metaReport p =>
    metaReport.insert p.1 p.2.metaInfo) ∅

/-- The pass over the report, which reads each source once more for its
count. -/
def Store.metaCount (s : Store) (metaReport : SyncMap.Map String MetaInfo) :
    List String → Except Panic (SyncMap.Map String MetaInfo)
  | [] => .ok metaReport
  | sourceId :: rest =>
      match s.storageIndex.lookup sourceId with
      | none => .error .interfaceConversion
      | some storage =>
          s.metaCount (metaReport.insert sourceId
            { storage.metaInfo with count := storage.tree.size }) rest

def Store.meta (s : Store) (order : SyncMap.RangeOrder String Storage)
    (reportOrder : SyncMap.RangeOrder String MetaInfo) :
    Except Panic (SyncMap.Map String MetaInfo) :=
  s.metaCount (s.metaRange order) ((reportOrder.visit (s.metaRange order).entries).map Sigma.fst)

end LogCache.EnvelopeStore

namespace LogCache.MetaReport

open AvlTree Envelopes EnvelopeStore StoreSteps StoreTransitions GetCompleteness UnfudgedStore Runs

variable {s s' : Store}

section report

theorem mem_foldl_insert (xs : List (Σ _ : String, Storage)) (m : SyncMap.Map String MetaInfo)
    (sourceId : String) :
    sourceId ∈ xs.foldl (fun metaReport p => metaReport.insert p.1 p.2.metaInfo) m ↔
      sourceId ∈ m ∨ sourceId ∈ xs.map Sigma.fst := by
  induction xs generalizing m with
  | nil => simp
  | cons p xs ih =>
      rw [List.foldl_cons, ih, AList.mem_insert, List.map_cons, List.mem_cons]
      tauto

theorem mem_metaRange (s : Store) (order : SyncMap.RangeOrder String Storage) (sourceId : String) :
    sourceId ∈ s.metaRange order ↔ sourceId ∈ s.storageIndex := by
  rw [Store.metaRange, mem_foldl_insert, ((order.perm s.storageIndex.entries).map
    Sigma.fst).mem_iff]
  exact or_iff_right (AList.notMem_empty sourceId)

def reported (storage : Storage) : MetaInfo := { storage.metaInfo with count := storage.tree.size }

theorem metaCount_ok {sourceIds : List String}
    (hindexed : ∀ sourceId ∈ sourceIds, sourceId ∈ s.storageIndex)
    (m : SyncMap.Map String MetaInfo) :
    ∃ report, s.metaCount m sourceIds = .ok report ∧ ∀ sourceId, report.lookup sourceId =
      if sourceId ∈ sourceIds then (s.storageIndex.lookup sourceId).map reported
      else m.lookup sourceId := by
  induction sourceIds generalizing m with
  | nil => exact ⟨m, rfl, fun _ => rfl⟩
  | cons src rest ih =>
      obtain ⟨storage, hstorage⟩ := SyncMap.mem_iff_lookup.mp (hindexed src List.mem_cons_self)
      obtain ⟨report, hreport, hlookup⟩ :=
        ih (fun sourceId h => hindexed sourceId (List.mem_cons_of_mem _ h))
        (m.insert src (reported storage))
      refine ⟨report, ?_, ?_⟩
      · rw [Store.metaCount, hstorage]
        exact hreport
      · intro sourceId
        rw [hlookup, SyncMap.lookup_insert_eq]
        by_cases hsrc : sourceId = src
        · subst hsrc
          simp [hstorage]
        · simp [hsrc]

theorem meta_eq (s : Store) (order : SyncMap.RangeOrder String Storage)
    (reportOrder : SyncMap.RangeOrder String MetaInfo) :
    ∃ report, s.meta order reportOrder = .ok report ∧
      ∀ sourceId, report.lookup sourceId = (s.storageIndex.lookup sourceId).map reported := by
  have hkeys : ∀ sourceId,
      sourceId ∈ (reportOrder.visit (s.metaRange order).entries).map Sigma.fst ↔
      sourceId ∈ s.storageIndex := by
    intro sourceId
    rw [((reportOrder.perm _).map Sigma.fst).mem_iff]
    exact mem_metaRange s order sourceId
  obtain ⟨report, hreport, hlookup⟩ :=
    metaCount_ok (fun sourceId h => (hkeys sourceId).mp h) (s.metaRange order)
  refine ⟨report, hreport, ?_⟩
  intro sourceId
  rw [hlookup]
  split_ifs with hmem
  · rfl
  · rw [hkeys] at hmem
    have hrange : sourceId ∉ s.metaRange order :=
      fun h => hmem ((mem_metaRange s order sourceId).mp h)
    rw [AList.lookup_eq_none.mpr hmem, AList.lookup_eq_none.mpr hrange]
    rfl

end report

def timestamps (s : Store) (sourceId : String) : Set Int64 :=
  {t | ∃ e ∈ stored s sourceId, e.timestamp = t}

structure Describes (s : Store) (report : SyncMap.Map String MetaInfo) : Prop where
  sources : ∀ sourceId, sourceId ∈ report ↔ sourceId ∈ s.storageIndex
  count : ∀ sourceId info, report.lookup sourceId = some info →
    info.count = (stored s sourceId).length
  oldest : ∀ sourceId info, report.lookup sourceId = some info →
    IsLeast (timestamps s sourceId) info.oldestTimestamp
  newest : ∀ sourceId info, report.lookup sourceId = some info →
    IsGreatest (timestamps s sourceId) info.newestTimestamp

section times

variable {config : Config} {counters counters' : Counters} {storage storage' : Storage}
    {e : Envelope}

theorem makeRoom_newest (h : storage.makeRoom config counters = .ok (counters', storage')) :
    storage'.metaInfo.newestTimestamp = storage.metaInfo.newestTimestamp := by
  rw [Storage.makeRoom] at h
  split_ifs at h
  · cases hleft : storage.tree.left with
    | none => rw [hleft] at h; cases h
    | some p => rw [hleft] at h; cases h; rfl
  · cases h
    rfl

theorem insertOrSwap_times
    (h : storage.insertOrSwap config counters e = .ok (counters', storage')) :
    storage'.tree.left.map Prod.fst = some storage'.metaInfo.oldestTimestamp ∧
      storage'.metaInfo.newestTimestamp = max storage.metaInfo.newestTimestamp e.timestamp := by
  rw [Storage.insertOrSwap] at h
  obtain ⟨⟨c, room⟩, hroom, h⟩ := bind_ok h
  rw [← makeRoom_newest hroom]
  cases hleft : (room.tree.put (fudgedKey config room.tree e.timestamp) e).left with
  | none => exact absurd hleft (put_left _ _ _)
  | some p =>
      simp only [Storage.insert, hleft] at h
      cases h
      refine ⟨congrArg (Option.map Prod.fst) hleft, ?_⟩
      dsimp only
      split_ifs with hlt
      · exact (max_eq_right hlt.le).symm
      · exact (max_eq_left (not_lt.mp hlt)).symm

end times

structure Accurate (storage : Storage) : Prop where
  unfudged : Unfudged storage.tree
  oldest : storage.tree.left.map Prod.fst = some storage.metaInfo.oldestTimestamp
  newest : IsGreatest {t | ∃ p ∈ storage.tree.entries, p.2.timestamp = t}
    storage.metaInfo.newestTimestamp

/-- A Put finds its timestamp free, and is as new as the newest timestamp on
record unless an envelope with that one stays. -/
def KeepsRecord (s : Store) : Op → Prop
  | .put e sourceId =>
      let storage := storageFor s sourceId
      let tree := roomFor s.config storage.tree
      tree.get e.timestamp = none ∧ (storage.metaInfo.newestTimestamp ≤ e.timestamp ∨
        ∃ p ∈ tree.entries, p.2.timestamp = storage.metaInfo.newestTimestamp)
  | .truncate _ _ => True

instance (s : Store) : (op : Op) → Decidable (KeepsRecord s op)
  | .put e sourceId => inferInstanceAs (Decidable
      ((roomFor s.config (storageFor s sourceId).tree).get e.timestamp = none ∧
        ((storageFor s sourceId).metaInfo.newestTimestamp ≤ e.timestamp ∨
          ∃ p ∈ (roomFor s.config (storageFor s sourceId).tree).entries,
            p.2.timestamp = (storageFor s sourceId).metaInfo.newestTimestamp)))
  | .truncate _ _ => inferInstanceAs (Decidable True)

def AccurateStore (s : Store) : Prop :=
  ∀ sourceId storage, s.storageIndex.lookup sourceId = some storage → Accurate storage

theorem insertOrSwap_accurate {config : Config} {counters counters' : Counters}
    {storage storage' : Storage} {e : Envelope} (hunfudged : Unfudged storage.tree)
    (hbound : ∀ p ∈ storage.tree.entries, p.2.timestamp ≤ storage.metaInfo.newestTimestamp)
    (hfree : (roomFor config storage.tree).get e.timestamp = none)
    (hnewest : storage.metaInfo.newestTimestamp ≤ e.timestamp ∨
      ∃ p ∈ (roomFor config storage.tree).entries, p.2.timestamp = storage.metaInfo.newestTimestamp)
    (h : storage.insertOrSwap config counters e = .ok (counters', storage')) :
    Accurate storage' := by
  obtain ⟨hold, hnew⟩ := insertOrSwap_times h
  have hperm := (insertOrSwap_inserted h).of_free hfree
  refine ⟨?_, hold, ?_, ?_⟩
  · intro p hp
    rcases List.mem_cons.mp (hperm.mem_iff.mp hp) with rfl | hp
    · rfl
    · exact hunfudged.roomFor config p hp
  · rw [hnew]
    rcases le_total storage.metaInfo.newestTimestamp e.timestamp with hle | hle
    · rw [max_eq_right hle]
      exact ⟨_, hperm.mem_iff.mpr List.mem_cons_self, rfl⟩
    · rw [max_eq_left hle]
      rcases hnewest with hge | ⟨p, hp, hpt⟩
      · exact ⟨_, hperm.mem_iff.mpr List.mem_cons_self, le_antisymm hle hge⟩
      · exact ⟨p, hperm.mem_iff.mpr (List.mem_cons_of_mem _ hp), hpt⟩
  · rintro t ⟨p, hp, rfl⟩
    rw [hnew]
    rcases List.mem_cons.mp (hperm.mem_iff.mp hp) with rfl | hp
    · exact le_max_right _ _
    · exact (hbound p ((roomFor_sublist _ _).subset hp)).trans (le_max_left _ _)

theorem put_accurate {e : Envelope} {sourceId : String} (hs : AccurateStore s)
    (hop : KeepsRecord s (.put e sourceId)) (h : s.put e sourceId = .ok s') : AccurateStore s' := by
  have hbefore : Unfudged (storageFor s sourceId).tree ∧ ∀ p ∈ (storageFor s sourceId).tree.entries,
      p.2.timestamp ≤ (storageFor s sourceId).metaInfo.newestTimestamp := by
    rw [storageFor]
    cases hlookup : s.storageIndex.lookup sourceId with
    | none => exact ⟨fun p hp => (by cases hp), fun p hp => (by cases hp)⟩
    | some storage =>
        have haccurate := hs sourceId storage hlookup
        exact ⟨haccurate.unfudged, fun p hp => haccurate.newest.2 ⟨p, hp, rfl⟩⟩
  rw [put_eq] at h
  obtain ⟨⟨counters', storage'⟩, hinsert, h⟩ := bind_ok h
  cases h
  refine SyncMap.forall_insert ?_ fun src storage _ hlookup => hs src storage hlookup
  exact insertOrSwap_accurate hbefore.1 hbefore.2 hop.1 hop.2 hinsert

theorem Removes.accurate {sourceId : String} {p : Int64 × Envelope} (hs : AccurateStore s)
    (hr : Removes s sourceId p s') : AccurateStore s' := by
  intro src storage' hlookup'
  cases hr with
  | last hlookup hleft hsize =>
      rw [SyncMap.lookup_erase_eq_some] at hlookup'
      exact hs src storage' hlookup'.2
  | @more storage _ q hlookup hleft hnext =>
      rw [SyncMap.lookup_insert_eq] at hlookup'
      split_ifs at hlookup' with hsrc
      · cases hlookup'
        have haccurate := hs sourceId storage hlookup
        have hentries := Tree.entries_remove_left hleft
        have hsub : ∀ x ∈ (storage.tree.remove p.1).entries, x ∈ storage.tree.entries := by
          intro x hx
          rw [hentries]
          exact List.mem_cons_of_mem _ hx
        have hq : q ∈ (storage.tree.remove p.1).entries := Tree.mem_of_left hnext
        refine ⟨fun x hx => haccurate.unfudged x (hsub x hx),
          congrArg (Option.map Prod.fst) hnext, ?_, ?_⟩
        · obtain ⟨x, hx, hxt⟩ := haccurate.newest.1
          have hordered := haccurate.unfudged.timeOrdered
          rw [hentries] at hx hordered
          rcases List.mem_cons.mp hx with rfl | hx
          · -- the entry removed is older than the one that follows it
            have hlt := (List.pairwise_cons.mp hordered).1 q hq
            exact absurd (haccurate.newest.2 ⟨q, hsub q hq, rfl⟩) (not_le.mpr (hxt ▸ hlt))
          · exact ⟨x, hx, hxt⟩
        · rintro t ⟨x, hx, rfl⟩
          exact haccurate.newest.2 ⟨x, hsub x hx, rfl⟩
      · exact hs src storage' hlookup'

theorem exec_accurate {op : Op} (hs : AccurateStore s) (hop : KeepsRecord s op)
    (h : exec s op = .ok s') :
    AccurateStore s' := by
  cases op with
  | put e sourceId => exact put_accurate hs hop h
  | truncate quantity order =>
      exact truncate_invariant (I := AccurateStore) (fun _ _ _ _ hs hr => Removes.accurate hs hr)
        (fun _ _ hs _ _ => hs) hs h

theorem Accurate.isLeast {storage : Storage} (h : Accurate storage) :
    IsLeast {t | ∃ p ∈ storage.tree.entries, p.2.timestamp = t}
      storage.metaInfo.oldestTimestamp := by
  obtain ⟨p, hleft, hp⟩ := Option.map_eq_some_iff.mp h.oldest
  have hmem : p ∈ storage.tree.entries := Tree.mem_of_left hleft
  rw [← hp]
  refine ⟨⟨p, hmem, (h.unfudged p hmem).symm⟩, ?_⟩
  rintro t ⟨x, hx, rfl⟩
  rw [← h.unfudged x hx]
  exact Tree.left_le hleft hx

theorem timestamps_of_lookup {sourceId : String} {storage : Storage}
    (hlookup : s.storageIndex.lookup sourceId = some storage) :
    timestamps s sourceId = {t | ∃ p ∈ storage.tree.entries, p.2.timestamp = t} := by
  rw [timestamps, stored, storageFor_of_lookup hlookup]
  ext t
  constructor
  · rintro ⟨e, he, rfl⟩
    obtain ⟨p, hp, rfl⟩ := List.mem_map.mp he
    exact ⟨p, hp, rfl⟩
  · rintro ⟨p, hp, rfl⟩
    exact ⟨p.2, List.mem_map_of_mem hp, rfl⟩

/-- After every run whose Puts keep the records, `Meta` describes what is
stored. -/
theorem meta_describes (maxPerSource prunesPerGC : Int) (ops : List Op) (s : Store)
    (hops : Along exec KeepsRecord (newStore maxPerSource prunesPerGC) ops)
    (hrun : run exec (newStore maxPerSource prunesPerGC) ops = .ok s)
    (order : SyncMap.RangeOrder String Storage) (reportOrder : SyncMap.RangeOrder String MetaInfo) :
    ∃ report, s.meta order reportOrder = .ok report ∧ Describes s report := by
  have hs : AccurateStore s :=
    run_invariant (fun _ _ _ hs hop h => exec_accurate hs hop h) (fun _ _ h => by cases h) hops hrun
  obtain ⟨report, hreport, hlookup⟩ := meta_eq s order reportOrder
  have hstorage : ∀ sourceId info, report.lookup sourceId = some info →
      ∃ storage, s.storageIndex.lookup sourceId = some storage ∧ info = reported storage := by
    intro sourceId info hinfo
    rw [hlookup, Option.map_eq_some_iff] at hinfo
    obtain ⟨storage, hstorage, hinfo⟩ := hinfo
    exact ⟨storage, hstorage, hinfo.symm⟩
  refine ⟨report, hreport, ?_, ?_, ?_, ?_⟩
  · intro sourceId
    rw [SyncMap.mem_iff_lookup, SyncMap.mem_iff_lookup, hlookup]
    simp
  · intro sourceId info hinfo
    obtain ⟨storage, hstorage, rfl⟩ := hstorage sourceId info hinfo
    rw [stored, storageFor_of_lookup hstorage, List.length_map, ← Tree.size_eq_length]
    rfl
  · intro sourceId info hinfo
    obtain ⟨storage, hstorage, rfl⟩ := hstorage sourceId info hinfo
    rw [timestamps_of_lookup hstorage]
    exact (hs sourceId storage hstorage).isLeast
  · intro sourceId info hinfo
    obtain ⟨storage, hstorage, rfl⟩ := hstorage sourceId info hinfo
    rw [timestamps_of_lookup hstorage]
    exact (hs sourceId storage hstorage).newest

theorem meta_describes_two_sources :
    ∃ s, run exec (newStore 2 1)
        [.put (bare 1) "a", .put (bare 3) "a", .put (bare 2) "a", .put (bare 0) "b",
          .truncate 1 .id] = .ok s ∧
      ∃ report, s.meta .id .id = .ok report ∧ Describes s report := by
  obtain ⟨s, hrun⟩ : ∃ s, run exec (newStore 2 1)
      [.put (bare 1) "a", .put (bare 3) "a", .put (bare 2) "a", .put (bare 0) "b",
        .truncate 1 .id] = .ok s :=
    exists_of_isOk (by decide +kernel)
  exact ⟨s, hrun, meta_describes 2 1 _ s (by decide +kernel) hrun .id .id⟩

theorem not_describes_of_oldest {report : SyncMap.Map String MetaInfo} {sourceId : String}
    {info : MetaInfo} (hinfo : report.lookup sourceId = some info)
    (hnone : ∀ e ∈ stored s sourceId, e.timestamp ≠ info.oldestTimestamp) :
    ¬ Describes s report := by
  intro h
  obtain ⟨e, he, ht⟩ := (h.oldest sourceId info hinfo).1
  exact hnone e he ht

theorem not_describes_of_newest {report : SyncMap.Map String MetaInfo} {sourceId : String}
    {info : MetaInfo} (hinfo : report.lookup sourceId = some info)
    (hnone : ∀ e ∈ stored s sourceId, e.timestamp ≠ info.newestTimestamp) :
    ¬ Describes s report := by
  intro h
  obtain ⟨e, he, ht⟩ := (h.newest sourceId info hinfo).1
  exact hnone e he ht

/-- Of two envelopes with timestamp 0 the second one is stored under 1, which
is reported once the first is evicted. With one place, a late envelope evicts
the newest one, which is reported still. The record of a new source starts at
0, which a timestamp before the epoch does not replace. -/
theorem meta_misreports :
    (∃ s report, run exec (newStore 2 1) [.put (bare 0) "a", .put (bare 0) "a",
      .put (bare 5) "a"] = .ok s ∧
      s.meta .id .id = .ok report ∧ report.lookup "a" = some ⟨2, 1, 1, 5⟩ ∧
        stored s "a" = [bare 0, bare 5] ∧
      ¬ Describes s report) ∧
    (∃ s report, run exec (newStore 1 1) [.put (bare 10) "a", .put (bare 5) "a"] = .ok s ∧
      s.meta .id .id = .ok report ∧ report.lookup "a" = some ⟨1, 1, 5, 10⟩ ∧
        stored s "a" = [bare 5] ∧
      ¬ Describes s report) ∧
    ∃ s report, run exec (newStore 1 1) [.put (bare (-1)) "a"] = .ok s ∧
      s.meta .id .id = .ok report ∧ report.lookup "a" = some ⟨1, 0, -1, 0⟩ ∧
        stored s "a" = [bare (-1)] ∧
      ¬ Describes s report := by
  refine ⟨⟨_, _, rfl, rfl, by decide, by decide, ?_⟩, ⟨_, _, rfl, rfl, by decide, by decide, ?_⟩,
    ⟨_, _, rfl, rfl, by decide, by decide, ?_⟩⟩
  · exact @not_describes_of_oldest _ _ "a" ⟨2, 1, 1, 5⟩ rfl (by decide)
  · exact @not_describes_of_newest _ _ "a" ⟨1, 1, 5, 10⟩ rfl (by decide)
  · exact @not_describes_of_newest _ _ "a" ⟨1, 0, -1, 0⟩ rfl (by decide)

end LogCache.MetaReport
