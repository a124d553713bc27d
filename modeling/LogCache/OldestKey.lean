import LogCache.Truncation
import Mathlib.Order.Bounds.Basic

namespace LogCache.OldestKey

open AvlTree Envelopes EnvelopeStore StoreSteps StoreTransitions Truncation Runs

variable {s s' : Store} {heap heap' : List StorageExpiration}

section keys

def older (s : Store) (key : Int64) : Nat := (entries s).countP fun x => decide (x.2.1 < key)

def notNewer (s : Store) (key : Int64) : Nat := (entries s).countP fun x => decide (x.2.1 ≤ key)

theorem entry_eq {x y : Entry} (hx : x ∈ entries s) (hy : y ∈ entries s) (hsrc : x.1 = y.1)
    (hkey : x.2.1 = y.2.1) : x = y := by
  obtain ⟨sourceId, p⟩ := x
  obtain ⟨_, q⟩ := y
  cases hsrc
  obtain ⟨storage, hlookup, hp⟩ := mem_entries.mp hx
  obtain ⟨storage', hlookup', hq⟩ := mem_entries.mp hy
  rw [hlookup] at hlookup'
  cases hlookup'
  have hget : storage.tree.get p.1 = some p.2 := Tree.get_eq_some.mpr hp
  rw [show p.1 = q.1 from hkey, Tree.get_eq_some.mpr hq] at hget
  rw [show p = q from Prod.ext hkey (Option.some.inj hget).symm]

/-- Every source that keeps a key when the `n` oldest go has the one that then
is the oldest. -/
def AllKeepOldest (s : Store) (n : Nat) : Prop :=
  ∀ x ∈ entries s, n ≤ older s x.2.1 → ∃ y ∈ entries s, y.1 = x.1 ∧ older s y.2.1 = n

def OldestShared (s : Store) (n : Nat) : Prop :=
  ∃ x ∈ entries s, ∃ y ∈ entries s,
    x.1 ≠ y.1 ∧ x.2.1 = y.2.1 ∧ older s x.2.1 ≤ n ∧ n < notNewer s x.2.1

instance (s : Store) (n : Nat) : Decidable (AllKeepOldest s n) :=
  inferInstanceAs (Decidable (∀ x ∈ entries s, _))

instance (s : Store) (n : Nat) : Decidable (OldestShared s n) :=
  inferInstanceAs (Decidable (∃ x ∈ entries s, _))

section pruned

variable {xs : List Entry} {x y z : Entry}

theorem older_eq (h : Prunes s xs s') (key : Int64) :
    older s key = xs.countP (fun x => decide (x.2.1 < key)) + older s' key := by
  rw [older, (Prunes.entries h).countP_eq, List.countP_append]
  rfl

theorem notNewer_eq (h : Prunes s xs s') (key : Int64) :
    notNewer s key = xs.countP (fun x => decide (x.2.1 ≤ key)) + notNewer s' key := by
  rw [notNewer, (Prunes.entries h).countP_eq, List.countP_append]
  rfl

theorem older_eq_zero {key : Int64} (h : ∀ y ∈ entries s, key ≤ y.2.1) : older s key = 0 :=
  List.countP_eq_zero.mpr fun y hy => by simpa using h y hy

theorem older_of_pruned (h : Prunes s xs s') (hx : x ∈ xs) : older s x.2.1 < xs.length := by
  rw [older_eq h, older_eq_zero fun y hy => Prunes.oldest h hx hy, Nat.add_zero]
  refine List.countP_le_length.lt_of_ne fun hall => ?_
  simpa using List.countP_eq_length.mp hall x hx

theorem length_lt_older (h : Prunes s xs s') (hz : z ∈ entries s') {key : Int64}
    (hlt : z.2.1 < key) :
    xs.length < older s key := by
  have hall : xs.countP (fun x => decide (x.2.1 < key)) = xs.length :=
    List.countP_eq_length.mpr fun x hx => decide_eq_true ((Prunes.oldest h hx hz).trans_lt hlt)
  have hpos : 0 < older s' key := List.countP_pos_iff.mpr ⟨z, hz, decide_eq_true hlt⟩
  rw [older_eq h, hall]
  omega

theorem older_le_length (h : Prunes s xs s') {key : Int64} (hkey : ∀ y ∈ entries s', key ≤ y.2.1) :
    older s key ≤ xs.length := by
  rw [older_eq h, older_eq_zero hkey]
  exact List.countP_le_length

theorem length_lt_notNewer (h : Prunes s xs s') (hz : z ∈ entries s') :
    xs.length < notNewer s z.2.1 := by
  have hall : xs.countP (fun x => decide (x.2.1 ≤ z.2.1)) = xs.length :=
    List.countP_eq_length.mpr fun x hx => decide_eq_true (Prunes.oldest h hx hz)
  have hpos : 0 < notNewer s' z.2.1 := List.countP_pos_iff.mpr ⟨z, hz, by simp⟩
  rw [notNewer_eq h, hall]
  omega

theorem mem_left (h : Prunes s xs s') (hx : x ∈ entries s) (hold : xs.length ≤ older s x.2.1) :
    x ∈ entries s' :=
  (List.mem_append.mp ((Prunes.entries h).mem_iff.mp hx)).resolve_left fun hx =>
    absurd hold (not_le.mpr (older_of_pruned h hx))

theorem lt_of_sourceId (h : Prunes s xs s') (hx : x ∈ xs) (hy : y ∈ entries s') (hsrc : x.1 = y.1) :
    x.2.1 < y.2.1 := by
  refine (Prunes.oldest h hx hy).lt_of_ne fun hkey => ?_
  have hdis := (List.nodup_append'.mp ((Prunes.entries h).nodup_iff.mp (nodup_entries s))).2.2
  have hxs := (Prunes.entries h).mem_iff.mpr (List.mem_append_left _ hx)
  have hys := (Prunes.entries h).mem_iff.mpr (List.mem_append_right _ hy)
  exact hdis hx (entry_eq hxs hys hsrc hkey ▸ hy)

theorem older_eq_length (h : Prunes s xs s') (hz : z ∈ entries s')
    (hleast : ∀ y ∈ entries s', z.2.1 ≤ y.2.1)
    (hone : ∀ x ∈ xs, x.2.1 = z.2.1 → x.1 = z.1) : older s z.2.1 = xs.length := by
  rw [older_eq h, older_eq_zero hleast, Nat.add_zero]
  refine List.countP_eq_length.mpr fun x hx => decide_eq_true ?_
  refine (Prunes.oldest h hx hz).lt_of_ne fun hkey => ?_
  exact (lt_of_sourceId h hx hz (hone x hx hkey)).ne hkey

end pruned

end keys

section record

structure RecordsOldest (s : Store) : Prop where
  least : entries s ≠ [] → IsLeast {key | ∃ x ∈ entries s, x.2.1 = key} s.counters.oldestTimestamp
  none : entries s = [] → s.counters.oldestTimestamp = MIN_INT64

theorem afterPruning_oldest (config : Config) (counters : Counters) (oldest : Option Int64) :
    (counters.afterPruning config oldest).oldestTimestamp = oldest.getD MIN_INT64 := by
  cases oldest with
  | none => rfl
  | some timestamp =>
      rw [Counters.afterPruning]
      split_ifs
      · rfl
      · rfl

theorem HeapFor.isLeast {x : StorageExpiration} (hheap : HeapFor s (x :: heap)) :
    IsLeast {key | ∃ y ∈ entries s, y.2.1 = key} x.timestamp := by
  constructor
  · obtain ⟨p, hp, hx⟩ := hheap.stored List.mem_cons_self
    exact ⟨(x.sourceId, p), hp, hx⟩
  · rintro key ⟨z, hz, rfl⟩
    refine le_of_minima (fun y hy => ?_) hz
    obtain ⟨i, hi⟩ := List.mem_iff_getElem?.mp (hheap.perm.mem_iff.mpr hy)
    have hle := BinaryHeap.rank_zero_le hheap.ordered i
    rw [BinaryHeap.rank_eq _ hi, BinaryHeap.rank_eq _ List.getElem?_cons_zero] at hle
    exact WithTop.coe_le_coe.mp hle

theorem HeapFor.recordsOldest_iff (hheap : HeapFor s heap) {counters : Counters}
    (hoff : counters.oldestTimestamp = (heap.getLast?.map StorageExpiration.timestamp).getD
      MIN_INT64) :
    RecordsOldest { s with counters := counters } ↔
      heap.getLast?.map StorageExpiration.timestamp =
        heap.head?.map StorageExpiration.timestamp := by
  cases heap with
  | nil =>
      have hnil : entries s = [] := by
        rw [← List.length_eq_zero_iff, length_entries]
        exact hheap.eq_nil_iff.mp rfl
      exact ⟨fun _ => rfl, fun _ => ⟨fun h => absurd hnil h, fun _ => hoff⟩⟩
  | cons x heap =>
      have hleast := HeapFor.isLeast hheap
      have hentries : entries s ≠ [] := by
        obtain ⟨y, hy, _⟩ := hleast.1
        exact List.ne_nil_of_mem hy
      rw [List.getLast?_eq_some_getLast (List.cons_ne_nil x heap)] at hoff ⊢
      simp only [Option.map_some, Option.getD_some, List.head?_cons, Option.some.injEq] at hoff ⊢
      rw [← hoff]
      constructor
      · intro h
        exact (h.least hentries).unique hleast
      · intro h
        exact ⟨fun _ => by rw [h]; exact hleast, fun hnil => absurd hnil hentries⟩

theorem minima_sources (s : Store) : ((minima s).map StorageExpiration.sourceId).Nodup := by
  have hsub (ps : List (Σ _ : String, Storage)) :
      ((ps.filterMap expiration).map StorageExpiration.sourceId).Sublist ps.keys := by
    induction ps with
    | nil => exact .slnil
    | cons p ps ih =>
        cases hp : p.2.tree.left with
        | none =>
            rw [List.filterMap_cons_none (by rw [expiration, hp]; rfl)]
            exact ih.cons _
        | some q =>
            rw [List.filterMap_cons_some (b := ⟨q.1, p.1⟩) (by rw [expiration, hp]; rfl)]
            exact ih.cons_cons _
  exact (hsub _).nodup s.storageIndex.nodupKeys

theorem HeapFor.exists_le (hheap : HeapFor s heap) {z : Entry} (hz : z ∈ entries s) :
    ∃ x ∈ heap, x.sourceId = z.1 ∧ x.timestamp ≤ z.2.1 := by
  obtain ⟨sourceId, q⟩ := z
  obtain ⟨storage, hlookup, hq⟩ := mem_entries.mp hz
  obtain ⟨p, hp⟩ := Option.isSome_iff_exists.mp ((Tree.left_isSome_iff storage.tree).mpr
    (by rw [Tree.size_eq_length]; exact List.length_pos_of_mem hq))
  refine ⟨⟨p.1, sourceId⟩, hheap.perm.mem_iff.mpr ?_, rfl, Tree.left_le hp hq⟩
  exact (minima_of_lookup hlookup hp).mem_iff.mpr List.mem_cons_self

theorem HeapFor.eq_of_sourceId (hheap : HeapFor s heap) {x y : StorageExpiration} (hx : x ∈ heap)
    (hy : y ∈ heap) (h : x.sourceId = y.sourceId) : x = y :=
  List.inj_on_of_nodup_map ((hheap.perm.map StorageExpiration.sourceId).nodup_iff.mpr
    (minima_sources s)) hx hy h

end record

section truncated

variable {xs : List Entry} {n : Nat}

theorem length_eq_of_left (h : Prunes s xs s') (hlen : xs.length = min n (size s))
    (hpos : entries s' ≠ []) : xs.length = n := by
  have hsize := (Prunes.entries h).length_eq
  have := List.length_pos_of_ne_nil hpos
  rw [List.length_append, length_entries s] at hsize
  omega

theorem timestamp_eq (h : Prunes s xs s') (hlen : xs.length = min n (size s))
    (hheap : HeapFor s' heap) (hall : AllKeepOldest s n) {key : Int64}
    (hleast : IsLeast {key | ∃ y ∈ entries s', y.2.1 = key} key) {y : StorageExpiration}
    (hy : y ∈ heap) : y.timestamp = key := by
  obtain ⟨p, hp, hpy⟩ := hheap.stored hy
  obtain ⟨oldest, holdest, rfl⟩ := hleast.1
  have hn := length_eq_of_left h hlen (List.ne_nil_of_mem hp)
  by_contra hne
  have hlt : oldest.2.1 < y.timestamp := (hleast.2 ⟨_, hp, hpy⟩).lt_of_ne (Ne.symm hne)
  have hstays := length_lt_older h holdest hlt
  have hps := (Prunes.entries h).mem_iff.mpr (List.mem_append_right xs hp)
  -- the source of `y` keeps a key as old as any, and that is in the heap
  obtain ⟨z, hz, hsrc, hzold⟩ := hall _ hps (by rw [hpy]; omega)
  have hzleft := mem_left h hz (by omega)
  have hzkey : z.2.1 ≤ oldest.2.1 := by
    by_contra hzlt
    have := length_lt_older h holdest (not_le.mp hzlt)
    omega
  obtain ⟨x, hx, hxsrc, hxle⟩ := HeapFor.exists_le hheap hzleft
  rw [HeapFor.eq_of_sourceId hheap hx hy (hxsrc.trans hsrc)] at hxle
  exact absurd (hxle.trans hzkey) (not_le.mpr hlt)

theorem lastTies_of_allKeepOldest (h : Prunes s xs s') (hlen : xs.length = min n (size s))
    (hheap : HeapFor s' heap) (hall : AllKeepOldest s n) :
    heap.getLast?.map StorageExpiration.timestamp = heap.head?.map StorageExpiration.timestamp := by
  cases heap with
  | nil => rfl
  | cons x rest =>
      have hlast := List.getLast?_eq_some_getLast (List.cons_ne_nil x rest)
      rw [hlast, List.head?_cons, Option.map_some, Option.map_some,
        timestamp_eq h hlen hheap hall (HeapFor.isLeast hheap) (List.getLast_mem _)]

theorem sourceId_of_lastTies {x : StorageExpiration} (hheap : HeapFor s (x :: heap))
    (hone : ∀ z ∈ entries s, z.2.1 = x.timestamp → z.1 = x.sourceId)
    (hties : (x :: heap).getLast?.map StorageExpiration.timestamp = some x.timestamp) :
    ∀ z ∈ entries s, z.1 = x.sourceId := by
  obtain ⟨y, hlast, hkey⟩ := Option.map_eq_some_iff.mp hties
  have hy := List.mem_of_getLast? hlast
  obtain ⟨p, hp, hpy⟩ := hheap.stored hy
  have hsrc : y.sourceId = x.sourceId := hone _ hp (hpy.trans hkey)
  have hyx := HeapFor.eq_of_sourceId hheap hy List.mem_cons_self hsrc
  have hnil : heap = [] := by
    by_contra hne
    obtain ⟨rest, hrest⟩ : ∃ rest, heap = rest ++ [x] := by
      rw [hyx, List.getLast?_cons, List.getLast?_eq_some_getLast hne] at hlast
      have hx := Option.some.inj hlast
      exact ⟨heap.dropLast, by rw [← hx]; exact (List.dropLast_append_getLast hne).symm⟩
    have hnodup := (hheap.perm.map StorageExpiration.sourceId).nodup_iff.mpr (minima_sources s)
    rw [hrest] at hnodup
    simp at hnodup
  intro z hz
  obtain ⟨w, hw, hwsrc, -⟩ := HeapFor.exists_le hheap hz
  rw [hnil, List.mem_singleton] at hw
  rw [← hwsrc, hw]

theorem allKeepOldest_of_lastTies (h : Prunes s xs s') (hlen : xs.length = min n (size s))
    (hheap : HeapFor s' heap) (hshared : ¬ OldestShared s n)
    (hties : heap.getLast?.map StorageExpiration.timestamp =
      heap.head?.map StorageExpiration.timestamp) :
    AllKeepOldest s n := by
  intro z hz hold
  have hzleft := mem_left h hz ((hlen.trans_le (Nat.min_le_left _ _)).trans hold)
  have hn := length_eq_of_left h hlen (List.ne_nil_of_mem hzleft)
  have hmem {y : Entry} (hy : y ∈ entries s') : y ∈ entries s :=
    (Prunes.entries h).mem_iff.mpr (List.mem_append_right xs hy)
  cases heap with
  | nil =>
      obtain ⟨x, hx, -⟩ := HeapFor.exists_le hheap hzleft
      cases hx
  | cons x rest =>
      obtain ⟨p, hp, hpx⟩ := hheap.stored List.mem_cons_self
      have hleast : ∀ y ∈ entries s', p.1 ≤ y.2.1 := fun y hy => by
        rw [hpx]
        exact (HeapFor.isLeast hheap).2 ⟨y, hy, rfl⟩
      have hone : ∀ y ∈ entries s, y.2.1 = p.1 → y.1 = x.sourceId := by
        intro y hy hkey
        by_contra hsrc
        have hmany := length_lt_notNewer h hp
        refine hshared ⟨y, hy, (x.sourceId, p), hmem hp, hsrc, hkey, ?_, ?_⟩
        · rw [hkey, ← hn]
          exact older_le_length h hleast
        · rwa [hkey, ← hn]
      refine ⟨(x.sourceId, p), hmem hp, ?_, ?_⟩
      · exact (sourceId_of_lastTies hheap (fun y hy hkey => hone y (hmem hy) (hkey.trans hpx.symm))
          hties z hzleft).symm
      · have hold := older_eq_length h hp hleast fun y hy hkey =>
          hone y ((Prunes.entries h).mem_iff.mpr (List.mem_append_left _ hy)) hkey
        exact hold.trans hn

end truncated

/-- If no two sources share a key, the record is right exactly when all keys
that stay are of one source. -/
theorem truncate_recordsOldest_of_distinct (hne : NonEmpty s) (hcount : s.counters.count = size s)
    {n : Nat} (hn : 1 ≤ n) (order : SyncMap.RangeOrder String Storage)
    (hdistinct : ∀ x ∈ entries s, ∀ y ∈ entries s, x.2.1 = y.2.1 → x.1 = y.1) :
    ∃ s', s.truncate n order = .ok s' ∧ (RecordsOldest s' ↔ ∀ x ∈ entries s, ∀ y ∈ entries s,
      n ≤ older s x.2.1 → n ≤ older s y.2.1 → x.1 = y.1) := by
  obtain ⟨xs, t, heap, heap', -, -, -, hheap, hxs, hlen, hok⟩ :=
    truncate_prunes hne hcount (by omega : (n : Int) ≠ 0) order
  refine ⟨_, hok, ?_⟩
  have hmem {y : Entry} (hy : y ∈ entries t) : y ∈ entries s :=
    (Prunes.entries hxs).mem_iff.mpr (List.mem_append_right xs hy)
  rw [Int.toNat_natCast] at hlen
  have hle : xs.length ≤ n := hlen.trans_le (Nat.min_le_left _ _)
  rw [HeapFor.recordsOldest_iff hheap (afterPruning_oldest t.config t.counters _)]
  cases heap' with
  | nil =>
      refine iff_of_true rfl fun x hx y _ hold => ?_
      obtain ⟨z, hz, -⟩ := HeapFor.exists_le hheap (mem_left hxs hx (hle.trans hold))
      cases hz
  | cons x rest =>
      obtain ⟨p, hp, hpx⟩ := hheap.stored List.mem_cons_self
      have hstays {w : Entry} (hw : w ∈ entries t) : n ≤ older s w.2.1 := by
        rw [← length_eq_of_left hxs hlen (List.ne_nil_of_mem hp), older_eq hxs]
        refine (List.countP_eq_length.mpr fun v hv => ?_).symm.le.trans (Nat.le_add_right _ _)
        have hvs := (Prunes.entries hxs).mem_iff.mpr (List.mem_append_left _ hv)
        refine decide_eq_true ((Prunes.oldest hxs hv hw).lt_of_ne fun hkey => ?_)
        exact (lt_of_sourceId hxs hv hw (hdistinct v hvs w (hmem hw) hkey)).ne hkey
      constructor
      · intro hties y hy z hz hyold hzold
        have hone := sourceId_of_lastTies hheap (fun w hw hkey =>
          hdistinct w (hmem hw) _ (hmem hp) (hkey.trans hpx.symm)) hties
        rw [hone y (mem_left hxs hy (hle.trans hyold)), hone z (mem_left hxs hz (hle.trans hzold))]
      · intro hone
        have hlast := List.getLast?_eq_some_getLast (List.cons_ne_nil x rest)
        have hmemlast := List.getLast_mem (List.cons_ne_nil x rest)
        obtain ⟨q, hq, -⟩ := hheap.stored hmemlast
        have hsrc := hone _ (hmem hq) _ (hmem hp) (hstays hq) (hstays hp)
        rw [hlast, HeapFor.eq_of_sourceId hheap hmemlast List.mem_cons_self hsrc]
        rfl

/-- A truncation that takes the `n` oldest keys records the oldest that is left
if every source that is left has it; and only then, unless several sources have
it. -/
theorem truncate_recordsOldest_iff (s : Store) (hne : NonEmpty s)
    (hcount : s.counters.count = size s) (n : Nat) (hn : 1 ≤ n)
    (order : SyncMap.RangeOrder String Storage) :
    ∃ s', s.truncate n order = .ok s' ∧ (AllKeepOldest s n → RecordsOldest s') ∧
      (¬ OldestShared s n → (RecordsOldest s' ↔ AllKeepOldest s n)) := by
  obtain ⟨xs, t, heap, heap', -, -, -, hheap, hxs, hlen, hok⟩ :=
    truncate_prunes hne hcount (by omega : (n : Int) ≠ 0) order
  have hrecords := HeapFor.recordsOldest_iff hheap (afterPruning_oldest t.config t.counters _)
  have hall := lastTies_of_allKeepOldest hxs hlen hheap
  refine ⟨_, hok, fun h => hrecords.mpr (hall h), fun hshared => hrecords.trans ⟨?_, hall⟩⟩
  exact allKeepOldest_of_lastTies hxs hlen hheap hshared

theorem truncate_recordsOldest_iff_one_source :
    ∃ s s', run exec (newStore 10 1)
        [.put (bare 1) "a", .put (bare 5) "a", .put (bare 8) "a", .put (bare 2) "b"] = .ok s ∧
      NonEmpty s ∧ s.counters.count = size s ∧ ¬ OldestShared s 2 ∧ AllKeepOldest s 2 ∧
      s.truncate 2 .id = .ok s' ∧ RecordsOldest s' := by
  obtain ⟨s, hrun, hne, hcount, hshared, hall⟩ : ∃ s, run exec (newStore 10 1)
        [.put (bare 1) "a", .put (bare 5) "a", .put (bare 8) "a", .put (bare 2) "b"] = .ok s ∧
      NonEmpty s ∧ s.counters.count = size s ∧ ¬ OldestShared s 2 ∧ AllKeepOldest s 2 :=
    exists_of_ends (by decide +kernel)
  obtain ⟨s', hok, -, hiff⟩ := truncate_recordsOldest_iff s hne hcount 2 (by decide) .id
  exact ⟨s, s', hrun, hne, hcount, hshared, hall, hok, (hiff hshared).mpr hall⟩

def backwards : SyncMap.RangeOrder String Storage := ⟨List.reverse, List.reverse_perm⟩

/-- Where several sources have the oldest key that is left, the keys do not
decide: here 1 is left in two sources and 2 in a third, and what is recorded
depends on the order in which the index was visited. -/
theorem shared_depends_on_order :
    ∃ s s₁ s₂, run exec (newStore 10 1)
        [.put (bare 0) "a", .put (bare 1) "b", .put (bare 2) "d", .put (bare 1) "c"] = .ok s ∧
      OldestShared s 1 ∧ s.truncate 1 .id = .ok s₁ ∧ s₁.counters.oldestTimestamp = 1 ∧
      s.truncate 1 backwards = .ok s₂ ∧ s₂.counters.oldestTimestamp = 2 := by
  obtain ⟨s, hrun, hshared, h₁, h₂⟩ : ∃ s, run exec (newStore 10 1)
        [.put (bare 0) "a", .put (bare 1) "b", .put (bare 2) "d", .put (bare 1) "c"] = .ok s ∧
      OldestShared s 1 ∧
      (s.truncate 1 .id).toOption.any (fun s => decide (s.counters.oldestTimestamp = 1)) = true ∧
      (s.truncate 1 backwards).toOption.any
        (fun s => decide (s.counters.oldestTimestamp = 2)) = true :=
    exists_of_ends (by decide +kernel)
  obtain ⟨s₁, hok₁, hold₁⟩ := exists_of_ends h₁
  obtain ⟨s₂, hok₂, hold₂⟩ := exists_of_ends h₂
  exact ⟨s, s₁, s₂, hrun, hshared, hok₁, hold₁, hok₂, hold₂⟩

/-- With two sources left the array ends in the newer of the two keys. -/
theorem truncate_records_newer :
    ∃ s s', run exec (newStore 2 1) [.put (bare 1) "a", .put (bare 5) "a",
      .put (bare 7) "b"] = .ok s ∧
      NonEmpty s ∧ s.counters.count = size s ∧ s.truncate 1 .id = .ok s' ∧
      (entries s').map (fun x => (x.1, x.2.1)) = [("a", 5), ("b", 7)] ∧
        s'.counters.oldestTimestamp = 7 ∧
      ¬ RecordsOldest s' := by
  obtain ⟨s', hok, hentries, hoff⟩ : ∃ s', (run exec (newStore 2 1)
      [.put (bare 1) "a", .put (bare 5) "a", .put (bare 7) "b"] >>= fun s => s.truncate 1 .id) =
        .ok s' ∧
      (entries s').map (fun x => (x.1, x.2.1)) = [("a", 5), ("b", 7)] ∧
        s'.counters.oldestTimestamp = 7 :=
    exists_of_ends (by decide +kernel)
  refine ⟨_, s', rfl, by decide, by decide, hok, hentries, hoff, fun h => ?_⟩
  obtain ⟨x, hx, hkey⟩ := List.mem_map.mp (hentries ▸ List.mem_cons_self)
  have hle := (h.least (List.ne_nil_of_mem hx)).2 ⟨x, hx, congrArg Prod.snd hkey⟩
  rw [hoff] at hle
  exact absurd hle (by decide)

end LogCache.OldestKey
