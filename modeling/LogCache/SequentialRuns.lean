import LogCache.Quiescence

namespace LogCache.SequentialRuns

open Envelopes EnvelopeStore Interleaving Quiescence Runs

variable {s s' : Sys} {st st' : Store}

section truncation

def forget (x : Expiration) : StorageExpiration := ⟨x.timestamp, x.sourceId⟩

/-- The heap of a truncation: the heap of the store, with each source once and
the pointer to its tree. -/
structure Points (index : SyncMap.Map String Nat) (xs : List Expiration)
    (heap : List StorageExpiration) : Prop where
  forgets : xs.map forget = heap
  indexed : ∀ x ∈ xs, index.lookup x.sourceId = some x.tree
  once : (xs.map Expiration.sourceId).Nodup

theorem points_push {index : SyncMap.Map String Nat} {xs : List Expiration}
    {heap : List StorageExpiration} (h : Points index xs heap) (x : Expiration)
    (hx : index.lookup x.sourceId = some x.tree) (hnew : x.sourceId ∉ xs.map Expiration.sourceId) :
    Points index (BinaryHeap.push Expiration.timestamp xs x)
      (BinaryHeap.push StorageExpiration.timestamp heap (forget x)) := by
  have hperm : (BinaryHeap.push Expiration.timestamp xs x).Perm (x :: xs) :=
    BinaryHeap.push_perm xs x
  refine ⟨?_, ?_, ?_⟩
  · rw [← h.forgets, BinaryHeap.push_map]
    rfl
  · intro y hy
    rcases List.mem_cons.mp (hperm.mem_iff.mp hy) with rfl | hy
    · exact hx
    · exact h.indexed y hy
  · rw [(hperm.map _).nodup_iff]
    exact List.nodup_cons.mpr ⟨hnew, h.once⟩

theorem heapVisits_simulate {n : Nat} (hholds : Holds s st) (rest : List (Σ _ : String, Storage))
    {due : List String} {xs : List Expiration} {heap heap' : List StorageExpiration}
    (htruncation : s.truncation = .building n due xs) (hpoints : Points s.storageIndex xs heap)
    (hdue : due.Perm (rest.map (·.1))) (hrest : ∀ p ∈ rest, st.storageIndex.lookup p.1 = some p.2)
    (hnodup : (rest.map (·.1)).Nodup) (hfresh : ∀ p ∈ rest, p.1 ∉ xs.map Expiration.sourceId)
    (hbuild : Store.buildHeapLoop heap rest = .ok heap') :
    ∃ xs', run step s (rest.map fun p => .heapVisit p.1) =
      .ok { s with truncation := .building n [] xs' } ∧
      Points s.storageIndex xs' heap' := by
  induction rest generalizing s due xs heap with
  | nil =>
      cases hbuild
      rw [List.map_nil, List.perm_nil] at hdue
      refine ⟨xs, ?_, hpoints⟩
      rw [← hdue, ← htruncation]
      rfl
  | cons p rest ih =>
      obtain ⟨hp, hrest⟩ := List.forall_mem_cons.mp hrest
      obtain ⟨hpfresh, hfresh⟩ := List.forall_mem_cons.mp hfresh
      obtain ⟨hpnot, hnodup⟩ := List.nodup_cons.mp hnodup
      rw [hholds.index] at hp
      obtain ⟨tree, htree, hstorage⟩ := Option.map_eq_some_iff.mp hp
      rw [Store.buildHeapLoop] at hbuild
      cases hleft : p.2.tree.left with
      | none =>
          rw [hleft] at hbuild
          cases hbuild
      | some q =>
          rw [hleft] at hbuild
          let x : Expiration := ⟨q.1, p.1, tree⟩
          let s₁ : Sys :=
            { s with truncation := .building n (due.erase p.1)
                       (BinaryHeap.push Expiration.timestamp xs x) }
          have hstep : s.heapVisit p.1 = .ok s₁ := by
            rw [Sys.heapVisit, htruncation, htree]
            dsimp only
            rw [if_neg hpfresh, hstorage, hleft]
          have hpoints₁ := points_push hpoints x htree hpfresh
          have hholds₁ : Holds s₁ st := hholds.frame rfl rfl rfl rfl rfl
          have hdue₁ : (due.erase p.1).Perm (rest.map (·.1)) := by
            have := hdue.erase p.1
            rwa [List.map_cons, List.erase_cons_head] at this
          have hfresh₁ : ∀ p' ∈ rest,
              p'.1 ∉ (BinaryHeap.push Expiration.timestamp xs x).map Expiration.sourceId := by
            intro p' hp'
            rw [((BinaryHeap.push_perm xs x).map _).mem_iff, List.map_cons, List.mem_cons, not_or]
            refine ⟨?_, hfresh p' hp'⟩
            intro heq
            exact hpnot (List.mem_map.mpr ⟨p', hp', heq⟩)
          obtain ⟨xs', hrun, hpoints'⟩ := ih hholds₁ rfl hpoints₁ hdue₁ hrest hnodup hfresh₁ hbuild
          refine ⟨xs', ?_, hpoints'⟩
          rw [List.map_cons, run_cons_of_ok (show step s (.heapVisit p.1) = .ok s₁ from hstep)]
          exact hrun

structure Pruning (s : Sys) (st : Store) (n : Nat) (heap : List StorageExpiration) : Prop where
  holds : Holds s st
  puts : s.puts = []
  heap : ∃ xs, s.truncation = .pruning n xs ∧ Points s.storageIndex xs heap

theorem prune_simulates {n : Nat} {heap heap' : List StorageExpiration}
    (h : Pruning s st (n + 1) heap) (hprune : st.pruneStep heap = .ok (st', heap')) :
    ∃ s', s.prune = .ok s' ∧ Pruning s' st' n heap' := by
  obtain ⟨xs, htruncation, hpoints⟩ := h.heap
  have hmap : BinaryHeap.pop StorageExpiration.timestamp heap =
      (BinaryHeap.pop Expiration.timestamp xs).map fun p => (forget p.1, p.2.map forget) := by
    rw [← hpoints.forgets]
    exact BinaryHeap.pop_map _ _ _
  rw [Store.pruneStep, hmap] at hprune
  rw [Sys.prune, htruncation]
  dsimp only
  cases hpop : BinaryHeap.pop Expiration.timestamp xs with
  | none =>
      rw [hpop] at hprune
      cases hprune
  | some popped =>
      obtain ⟨x, ys⟩ := popped
      rw [hpop] at hprune
      have hperm := BinaryHeap.pop_perm hpop
      have hx := hpoints.indexed x (hperm.mem_iff.mpr List.mem_cons_self)
      obtain ⟨hnew, hys⟩ :=
        List.nodup_cons.mp ((hperm.map Expiration.sourceId).nodup_iff.mp hpoints.once)
      have hrest : Points s.storageIndex ys (ys.map forget) :=
        ⟨rfl, fun y hy => hpoints.indexed y (hperm.mem_iff.mpr (List.mem_cons_of_mem _ hy)), hys⟩
      have hlookup : st.storageIndex.lookup (forget x).sourceId = some (s.trees x.tree) := by
        rw [h.holds.index]
        exact congrArg _ hx
      dsimp only [Option.map_some] at hprune ⊢
      obtain ⟨⟨st₁, newOldest⟩, hremove, hprune⟩ := bind_ok hprune
      rw [Store.removeOldestEnvelope, hlookup, ← h.holds.counters] at hremove
      obtain ⟨removal, hremoval, hremove⟩ := bind_ok hremove
      rw [Sys.pruneTree, hremoval]
      cases removal with
      | nothing =>
          cases hremove
          cases hprune
          exact ⟨_, rfl, ⟨h.holds.frame rfl rfl rfl rfl rfl, h.puts, ys, rfl, hrest⟩⟩
      | emptied counters storage =>
          cases hremove
          cases hprune
          have hholds := holds_erase h.holds hx counters storage
          refine ⟨_, rfl, ⟨hholds.frame rfl rfl rfl rfl rfl, h.puts, ys, rfl, rfl, ?_, hys⟩⟩
          intro y hy
          rw [SyncMap.lookup_erase_eq_some]
          exact ⟨fun heq => hnew (List.mem_map.mpr ⟨y, hy, heq⟩), hrest.indexed y hy⟩
      | remains counters storage timestamp =>
          cases hremove
          cases hprune
          have hholds := holds_update h.holds hx counters storage
          exact ⟨_, rfl, ⟨hholds.frame rfl rfl rfl rfl rfl,
            h.puts, _, rfl, points_push hrest ⟨timestamp, x.sourceId, x.tree⟩ hx hnew⟩⟩

theorem prunes_simulate {n : Nat} {heap heap' : List StorageExpiration} (h : Pruning s st n heap)
    (hloop : Store.pruneLoop n st heap = .ok (st', heap')) :
    ∃ s', run step s (List.replicate n .prune) = .ok s' ∧ Pruning s' st' 0 heap' := by
  induction n generalizing s st heap with
  | zero =>
      cases hloop
      exact ⟨s, rfl, h⟩
  | succ n ih =>
      obtain ⟨⟨st₁, heap₁⟩, hprune, hloop⟩ := bind_ok hloop
      obtain ⟨s₁, hs₁, h₁⟩ := prune_simulates h hprune
      obtain ⟨s', hrun, h'⟩ := ih h₁ hloop
      refine ⟨s', ?_, h'⟩
      rw [List.replicate_succ, run_cons_of_ok (show step s .prune = .ok s₁ from hs₁)]
      exact hrun

theorem keys_perm (h : Holds s st) (order : SyncMap.RangeOrder String Storage) :
    s.storageIndex.keys.Perm ((order.visit st.storageIndex.entries).map (·.1)) := by
  have hvisit : ((order.visit st.storageIndex.entries).map (·.1)).Perm st.storageIndex.keys :=
    (order.perm st.storageIndex.entries).map _
  refine List.Perm.trans ?_ hvisit.symm
  apply (List.perm_ext_iff_of_nodup s.storageIndex.keys_nodup st.storageIndex.keys_nodup).mpr
  intro sourceId
  rw [← AList.mem_keys, ← AList.mem_keys, ← AList.lookup_isSome, ← AList.lookup_isSome, h.index,
    Option.isSome_map]

theorem build_simulates {quantity : Int} (hquantity : quantity ≠ 0)
    {order : SyncMap.RangeOrder String Storage} {heap : List StorageExpiration} (h : AtRest st s)
    (hbuild : st.buildExpirationHeap order = .ok heap) :
    ∃ es s', run step s es = .ok s' ∧
      Pruning s' st (numberToPrune st.counters.count quantity).toNat heap := by
  let n := (numberToPrune st.counters.count quantity).toNat
  have hbegin : step s (.truncateBegin quantity) = .ok { s with truncation := .loaded n } := by
    rw [step, Sys.truncateBegin, h.truncation]
    dsimp only
    rw [if_neg hquantity, h.holds.counters]
  let s₁ : Sys := { s with truncation := .building n s.storageIndex.keys [] }
  have hrange : step { s with truncation := .loaded n } .rangeBegin = .ok s₁ := rfl
  have hholds : Holds s₁ st := h.holds.frame rfl rfl rfl rfl rfl
  have hvisit := order.perm st.storageIndex.entries
  have hkeys := keys_perm h.holds order
  obtain ⟨xs, hvisits, hpoints⟩ :=
    heapVisits_simulate hholds (order.visit st.storageIndex.entries) rfl
    ⟨rfl, by simp, by simp⟩ hkeys (fun p hp => SyncMap.mem_entries.mp (hvisit.mem_iff.mp hp))
    (hkeys.nodup_iff.mp s.storageIndex.keys_nodup) (by simp) hbuild
  have hend : step { s₁ with truncation := .building n [] xs } .rangeEnd =
      .ok { s₁ with truncation := .pruning n xs } := rfl
  refine ⟨_, _, run_snoc (run_trans (run_snoc (run_cons_of_ok hbegin []) hrange) hvisits) hend, ?_⟩
  exact ⟨hholds.frame rfl rfl rfl rfl rfl, h.puts, xs, rfl, hpoints⟩

theorem truncateEnd_simulates {heap : List StorageExpiration} (h : Pruning s st 0 heap) :
    ∃ s', step s .truncateEnd = .ok s' ∧
      AtRest { st with counters := st.counters.afterPruning st.config
                         (heap.getLast?.map StorageExpiration.timestamp) }
        s' := by
  obtain ⟨xs, htruncation, hpoints⟩ := h.heap
  have hlast : heap.getLast?.map StorageExpiration.timestamp =
      xs.getLast?.map Expiration.timestamp := by
    rw [← hpoints.forgets, List.getLast?_map, Option.map_map]
    rfl
  rw [step, Sys.truncateEnd, htruncation]
  refine ⟨_, rfl, ⟨h.holds.config, ?_, h.holds.index, h.holds.allocated, h.holds.unshared⟩,
    h.puts, rfl⟩
  dsimp only
  rw [hlast, h.holds.counters, h.holds.config]

theorem truncate_simulates {quantity : Int} {order : SyncMap.RangeOrder String Storage}
    (h : AtRest st s) (htruncate : st.truncate quantity order = .ok st') :
    ∃ es s', run step s es = .ok s' ∧ AtRest st' s' := by
  rw [Store.truncate] at htruncate
  by_cases hquantity : quantity = 0
  · rw [if_pos hquantity] at htruncate
    cases htruncate
    have hstep : step s (.truncateBegin quantity) =
        .ok { s with counters := { s.counters with consecutiveTruncation := 0 } } := by
      rw [step, Sys.truncateBegin, h.truncation]
      exact if_pos hquantity
    refine ⟨_, _, run_cons_of_ok hstep [], ?_, h.puts, h.truncation⟩
    exact ⟨h.holds.config, by rw [h.holds.counters], h.holds.index, h.holds.allocated,
      h.holds.unshared⟩
  · rw [if_neg hquantity] at htruncate
    obtain ⟨heap, hbuild, htruncate⟩ := bind_ok htruncate
    obtain ⟨⟨st₁, heap₁⟩, hloop, htruncate⟩ := bind_ok htruncate
    cases htruncate
    obtain ⟨es, s₁, hrun₁, hpruning⟩ := build_simulates hquantity h hbuild
    obtain ⟨s₂, hrun₂, hpruned⟩ := prunes_simulate hpruning hloop
    obtain ⟨s₃, hend, hrest⟩ := truncateEnd_simulates hpruned
    exact ⟨_, s₃, run_snoc (run_trans hrun₁ hrun₂) hend, hrest⟩

end truncation

theorem exec_simulates (op : Op) (h : AtRest st s) (hexec : exec st op = .ok st') :
    ∃ es s', run step s es = .ok s' ∧ AtRest st' s' := by
  cases op with
  | put e sourceId =>
      obtain ⟨s', hrun, hrest⟩ := put_simulates h hexec
      exact ⟨_, s', hrun, hrest⟩
  | truncate quantity order => exact truncate_simulates h hexec

/-- Every run of calls one after the other is a run of the system of concurrent
calls, and ends with the same store. -/
theorem sequential_run_interleaves (maxPerSource prunesPerGC : Int) (ops : List Op)
    (h : run exec (newStore maxPerSource prunesPerGC) ops = .ok st) :
    ∃ es s, run step (initial maxPerSource prunesPerGC) es = .ok s ∧ AtRest st s := by
  refine run_simulates (fun st op st' s hrest hexec => exec_simulates op hrest hexec) ?_ h
  refine ⟨⟨rfl, rfl, fun _ => rfl, ?_, ?_⟩, rfl, rfl⟩
  · intro sourceId tree hlookup
    cases hlookup
  · intro sourceId sourceId' tree hlookup
    cases hlookup

end LogCache.SequentialRuns
