import LogCache.PutCoherence

namespace LogCache.Conservation

open AvlTree Envelopes EnvelopeStore StoreSteps Interleaving Runs Coherence PutCoherence

variable {s s' : Sys}

section prune

variable {n : Nat} {oldest : Expiration} {heap heap' : List Expiration}

inductive Pruned (s : Sys) (n : Nat) (oldest : Expiration) (heap : List Expiration) : Sys → Prop
  | nothing (hsize : (s.trees oldest.tree).tree.size = 0) :
      Pruned s n oldest heap { s with truncation := .pruning n heap }
  | emptied {p : Int64 × Envelope} (hleft : (s.trees oldest.tree).tree.left = some p)
      (hsize : (s.trees oldest.tree).tree.size = 1) :
      Pruned s n oldest heap { s with
        counters := removed s.counters
        trees := Function.update s.trees oldest.tree
          { s.trees oldest.tree with tree := (s.trees oldest.tree).tree.remove p.1 }
        storageIndex := s.storageIndex.erase oldest.sourceId
        truncation := .pruning n heap
        metas := s.metas.map (MetaCall.forget oldest.sourceId)
        removed := p.2 :: s.removed }
  | remains {p q : Int64 × Envelope} (hleft : (s.trees oldest.tree).tree.left = some p)
      (hnext : ((s.trees oldest.tree).tree.remove p.1).left = some q) :
      Pruned s n oldest heap { s with
        counters := removed s.counters
        trees := Function.update s.trees oldest.tree
          { metaInfo := { (s.trees oldest.tree).metaInfo with
              expired := (s.trees oldest.tree).metaInfo.expired + 1, oldestTimestamp := q.1 }
            tree := (s.trees oldest.tree).tree.remove p.1 }
        truncation := .pruning n
          (BinaryHeap.push Expiration.timestamp heap ⟨q.1, oldest.sourceId, oldest.tree⟩)
        removed := p.2 :: s.removed }

theorem pruneTree_pruned (s : Sys) (n : Nat) (oldest : Expiration) (heap : List Expiration) :
    ∃ s', s.pruneTree n oldest heap = .ok s' ∧ Pruned s n oldest heap s' := by
  by_cases hsize : (s.trees oldest.tree).tree.size = 0
  · refine ⟨_, ?_, .nothing hsize⟩
    rw [Sys.pruneTree, removeOldest_empty hsize]
  · obtain ⟨p, hleft, ⟨hone, hr⟩ | ⟨q, hnext, hr⟩⟩ :=
      removeOldest_cases s.counters (Nat.pos_of_ne_zero hsize)
    · refine ⟨_, ?_, .emptied hleft hone⟩
      rw [Sys.pruneTree, hr, hleft]
      rfl
    · refine ⟨_, ?_, .remains hleft hnext⟩
      rw [Sys.pruneTree, hr, hleft]
      rfl

theorem prune_ok (h : s.prune = .ok s') :
    ∃ n heap oldest heap', s.truncation = .pruning (n + 1) heap ∧
      BinaryHeap.pop Expiration.timestamp heap = some (oldest, heap') ∧
        Pruned s n oldest heap' s' := by
  rw [Sys.prune] at h
  split at h
  · rename_i n heap htrunc
    cases hpop : BinaryHeap.pop Expiration.timestamp heap with
    | none => rw [hpop] at h; cases h
    | some r =>
        obtain ⟨oldest, heap'⟩ := r
        obtain ⟨t, ht, hpruned⟩ := pruneTree_pruned s n oldest heap'
        rw [hpop] at h
        rw [show s.pruneTree n oldest heap' = .ok s' from h] at ht
        cases ht
        exact ⟨n, heap, oldest, heap', htrunc, hpop, hpruned⟩
  · cases h

def nextOldest (s : Sys) : Option Expiration :=
  match s.truncation with
  | .pruning (_ + 1) heap => (BinaryHeap.pop Expiration.timestamp heap).map Prod.fst
  | _ => none

theorem mem_nextOldest (htrunc : s.truncation = .pruning (n + 1) heap)
    (hpop : BinaryHeap.pop Expiration.timestamp heap = some (oldest, heap')) :
    oldest ∈ nextOldest s := by
  rw [nextOldest, htrunc]
  dsimp only
  rw [hpop]
  rfl

theorem popped (h : Linked s) (htrunc : s.truncation = .pruning n heap)
    (hpop : BinaryHeap.pop Expiration.timestamp heap = some (oldest, heap')) :
    s.storageIndex.lookup oldest.sourceId = some oldest.tree ∧
      (∀ x ∈ heap', s.storageIndex.lookup x.sourceId = some x.tree) ∧
      (oldest.sourceId :: heap'.map Expiration.sourceId).Nodup := by
  have hperm := BinaryHeap.pop_perm hpop
  have hheap := h.heap
  have honce := h.once
  rw [htrunc] at hheap honce
  refine ⟨?_, ?_, ?_⟩
  · exact hheap oldest (hperm.mem_iff.mpr List.mem_cons_self)
  · exact fun x hx => hheap x (hperm.mem_iff.mpr (List.mem_cons_of_mem _ hx))
  · exact (hperm.map _).nodup_iff.mp honce

/-- A removal does not take the last entry of a tree that a Put in progress
holds. -/
def NotHeld (s : Sys) : Event → Prop
  | .prune => ∀ oldest ∈ nextOldest s, (s.trees oldest.tree).tree.size = 1 →
    ∀ p ∈ s.puts, p.tree ≠ oldest.tree
  | _ => True

instance (s : Sys) (event : Event) : Decidable (NotHeld s event) := by
  cases event <;> unfold NotHeld <;> infer_instance

theorem emptied_coherent (h : Coherent s) {p : Int64 × Envelope} {storage : Storage}
    (hl : s.storageIndex.lookup oldest.sourceId = some oldest.tree)
    (hheap : ∀ x ∈ heap, s.storageIndex.lookup x.sourceId = some x.tree)
    (honce : (oldest.sourceId :: heap.map Expiration.sourceId).Nodup)
    (hentries : (s.trees oldest.tree).tree.entries = [p])
    (hheld : ∀ p ∈ s.puts, p.tree ≠ oldest.tree) :
    Coherent { s with
      counters := removed s.counters
      trees := Function.update s.trees oldest.tree storage
      storageIndex := s.storageIndex.erase oldest.sourceId
      truncation := .pruning n heap
      metas := s.metas.map (MetaCall.forget oldest.sourceId)
      removed := p.2 :: s.removed } := by
  have hcontent := content_erase h.toLinked hl storage
  refine ⟨⟨?_, ?_, ?_, ?_, honce.of_cons⟩, ?_, ⟨?_, ?_, ?_⟩⟩
  · intro src tree ht
    exact h.allocated src tree (SyncMap.lookup_erase_eq_some.mp ht).2
  · intro src src' tree ht ht'
    exact h.unshared src src' tree (SyncMap.lookup_erase_eq_some.mp ht).2
      (SyncMap.lookup_erase_eq_some.mp ht').2
  · intro p' hp'
    refine SyncMap.lookup_erase_eq_some.mpr ⟨fun hsrc => hheld p' hp' ?_, h.held p' hp'⟩
    have hlookup := h.held p' hp'
    rw [hsrc, hl] at hlookup
    exact (Option.some.inj hlookup).symm
  · intro x hx
    refine SyncMap.lookup_erase_eq_some.mpr ⟨fun hsrc => ?_, hheap x hx⟩
    apply (List.nodup_cons.mp honce).1
    rw [← hsrc]
    exact List.mem_map_of_mem hx
  · refine h.toDistinct.mono (fun src q hq => ?_) rfl rfl
    exact mem_of_mem_update (fun q hq => absurd hq List.not_mem_nil) src q (hcontent ▸ hq)
  · have hsize := size_eq hl
    rw [Tree.size_eq_length, hentries, List.length_singleton] at hsize
    have hc := h.count
    change s.counters.count - 1 = ((SyncMap.total
      (fun t => (Function.update s.trees oldest.tree storage t).tree.size)
      (s.storageIndex.erase oldest.sourceId) : Nat) : Int)
    rw [total_erase_update h.toLinked hl]
    omega
  · intro e he
    have hold : (content s oldest.sourceId).map Prod.snd = [p.2] ++
        ([] : List (Int64 × Envelope)).map Prod.snd := by
      rw [content, hl]
      dsimp only
      rw [hentries]
      rfl
    have := accounted_update hold (List.Subset.refl []) (h.returned e he)
    rw [← hcontent] at this
    exact this
  · exact congrArg (· + 1) h.expired

theorem remains_coherent (h : Coherent s) {p : Int64 × Envelope} {storage : Storage}
    (hl : s.storageIndex.lookup oldest.sourceId = some oldest.tree)
    (hheap : ∀ x ∈ heap, s.storageIndex.lookup x.sourceId = some x.tree)
    (honce : (heap.map Expiration.sourceId).Nodup)
    (hentries : (s.trees oldest.tree).tree.entries = p :: storage.tree.entries) :
    Coherent { s with
      counters := removed s.counters
      trees := Function.update s.trees oldest.tree storage
      truncation := .pruning n heap
      removed := p.2 :: s.removed } := by
  have hcontent := content_update h.toLinked hl storage
  have hold : content s oldest.sourceId = p :: storage.tree.entries := by
    rw [content, hl]
    exact hentries
  refine ⟨⟨h.allocated, h.unshared, h.held, hheap, honce⟩, ?_, ⟨?_, ?_, ?_⟩⟩
  · refine h.toDistinct.mono (fun src q hq => mem_of_mem_update (fun q hq => ?_) src q
      (hcontent ▸ hq)) rfl rfl
    rw [hold]
    exact List.mem_cons_of_mem _ hq
  · have hsize := size_update h.toLinked hl storage
    have hlen := congrArg List.length hentries
    rw [List.length_cons, ← Tree.size_eq_length, ← Tree.size_eq_length] at hlen
    have hc := h.count
    change s.counters.count - 1 =
      ((size { s with trees := Function.update s.trees oldest.tree storage } : Nat) : Int)
    omega
  · intro e he
    have hmap : (content s oldest.sourceId).map Prod.snd = [p.2] ++
        storage.tree.entries.map Prod.snd := by
      rw [hold]
      rfl
    have := accounted_update hmap (fun q hq => hq) (h.returned e he)
    rw [← hcontent] at this
    exact this
  · exact congrArg (· + 1) h.expired

theorem prune_coherent (h : Coherent s) (hheld : NotHeld s .prune) (hs : s.prune = .ok s') :
    Coherent s' := by
  obtain ⟨n, heap, oldest, heap', htrunc, hpop, hpruned⟩ := prune_ok hs
  obtain ⟨hl, hheap', honce'⟩ := popped h.toLinked htrunc hpop
  cases hpruned with
  | nothing hsize =>
      exact Quiet.coherent ⟨rfl, rfl, rfl, fun x hx => Or.inr (hheap' x hx),
        fun _ => honce'.of_cons⟩ h
  | @emptied p hleft hsize =>
      refine emptied_coherent h hl hheap' honce' ?_
        (hheld oldest (mem_nextOldest htrunc hpop) hsize)
      have hnil : ((s.trees oldest.tree).tree.remove p.1).entries = [] := by
        apply List.eq_nil_of_length_eq_zero
        rw [← Tree.size_eq_length]
        have := Tree.size_remove_left hleft
        omega
      rw [Tree.entries_remove_left hleft, hnil]
  | @remains p q hleft hnext =>
      have hpush : (BinaryHeap.push Expiration.timestamp heap'
          ⟨q.1, oldest.sourceId, oldest.tree⟩).Perm
          (⟨q.1, oldest.sourceId, oldest.tree⟩ :: heap') := BinaryHeap.push_perm _ _
      refine remains_coherent h hl ?_ ((hpush.map _).nodup_iff.mpr honce')
        (Tree.entries_remove_left hleft)
      intro x hx
      rcases List.mem_cons.mp (hpush.mem_iff.mp hx) with rfl | hx
      · exact hl
      · exact hheap' x hx

end prune

def begun : Event → List Int64
  | .putBegin e _ => [e.timestamp]
  | _ => []

def Fresh (s : Sys) (event : Event) : Prop := ∀ t ∈ begun event, ∀ e ∈ s.started, e.timestamp ≠ t

theorem step_coherent {event : Event} (h : Coherent s) (hfresh : Fresh s event)
    (hheld : NotHeld s event) (hs : step s event = .ok s') : Coherent s' := by
  rcases step_cases hs with ⟨e, sourceId, rfl, rfl⟩ | ⟨i, rfl, hs⟩ | ⟨rfl, hs⟩ | ⟨_, hq⟩
  · exact putBegin_coherent h (hfresh e.timestamp (List.mem_singleton_self _))
  · exact putEnd_coherent h hs
  · exact prune_coherent h hheld hs
  · exact hq.coherent h

theorem step_started {event : Event} (hs : step s event = .ok s') :
    s'.started.map Envelope.timestamp = begun event ++ s.started.map Envelope.timestamp := by
  rcases step_cases hs with ⟨e, sourceId, rfl, rfl⟩ | ⟨i, rfl, hs⟩ | ⟨rfl, hs⟩ | ⟨hne, hq⟩
  · rw [(putBegin_rest s e sourceId).2.1]
    rfl
  · obtain ⟨p, counters, storage, _, _, rfl⟩ := putEnd_ok hs
    rfl
  · obtain ⟨n, heap, oldest, heap', _, _, hpruned⟩ := prune_ok hs
    cases hpruned <;> rfl
  · rw [hq.same]
    cases event with
    | putBegin e sourceId => exact absurd rfl (hne e sourceId)
    | _ => rfl

theorem along_fresh (events : List Event) (s : Sys) (hnodup : (events.flatMap begun).Nodup)
    (hs : ∀ t ∈ events.flatMap begun, t ∉ s.started.map Envelope.timestamp) :
    Along step Fresh s events := by
  induction events generalizing s with
  | nil => trivial
  | cons event events ih =>
      rw [List.flatMap_cons] at hnodup hs
      obtain ⟨_, hrest, hdisjoint⟩ := List.nodup_append'.mp hnodup
      constructor
      · intro t ht e he heq
        apply hs t (List.mem_append_left _ ht)
        rw [← heq]
        exact List.mem_map_of_mem he
      · intro s' hstep
        apply ih s' hrest
        intro t ht hmem
        rw [step_started hstep, List.mem_append] at hmem
        rcases hmem with hmem | hmem
        · exact hdisjoint hmem ht
        · exact hs t (List.mem_append_right _ ht) hmem

theorem initial_coherent (maxPerSource prunesPerGC : Int) :
    Coherent (initial maxPerSource prunesPerGC) := by
  refine ⟨⟨nofun, nofun, nofun, nofun, List.nodup_nil⟩, ⟨nofun, nofun, List.nodup_nil⟩,
    ⟨rfl, nofun, rfl⟩⟩

/-- No Put is lost in a run in which no tree is emptied while a Put holds it. -/
theorem no_lost_put (maxPerSource prunesPerGC : Int) (events : List Event) (s : Sys)
    (hdistinct : (events.flatMap begun).Nodup)
    (hheld : Along step NotHeld (initial maxPerSource prunesPerGC) events)
    (hrun : run step (initial maxPerSource prunesPerGC) events = .ok s) :
    (∀ e ∈ s.returned, e ∈ s.removed ∨ ∃ sourceId, ∃ q ∈ content s sourceId, q.2 = e) ∧
      s.removed.length = s.counters.expired ∧ s.counters.count = size s := by
  have hfresh := along_fresh events (initial maxPerSource prunesPerGC) hdistinct fun _ _ =>
      List.not_mem_nil
  have h : Coherent s :=
    run_invariant (P := fun s event => Fresh s event ∧ NotHeld s event)
      (fun _ _ _ h hP hs => step_coherent h hP.1 hP.2 hs) (initial_coherent _ _)
        (hfresh.and hheld) hrun
  exact ⟨h.returned, h.expired, h.count⟩

def onePut : List Event := [.putBegin (bare 1) "a", .putEnd 0]

def truncation (between : List Event) : List Event :=
  [.truncateBegin 1, .rangeBegin, .heapVisit "a", .rangeEnd] ++ between ++ [.prune, .truncateEnd]

theorem no_lost_put_truncated :
    ∃ s, run step (initial 10 1) (onePut ++ truncation [.putBegin (bare 2) "b"] ++ [.putEnd 0]) =
      .ok s ∧
      s.removed.length = s.counters.expired ∧ s.counters.count = size s := by
  obtain ⟨s, hs⟩ : ∃ s, run step (initial 10 1)
      (onePut ++ truncation [.putBegin (bare 2) "b"] ++ [.putEnd 0]) = .ok s :=
        exists_of_isOk (by decide +kernel)
  exact ⟨s, hs, (no_lost_put 10 1 _ s (by decide) (by decide +kernel) hs).2⟩

/-- The second Put has its tree when the truncation empties it. -/
theorem put_lost :
    ∃ s, run step (initial 10 1) (onePut ++ truncation [.putBegin (bare 2) "a"] ++ [.putEnd 0]) =
      .ok s ∧
      s.puts = [] ∧ s.truncation = .idle ∧ bare 2 ∈ s.returned ∧ bare 2 ∉ s.removed ∧
      s.storageIndex.keys = [] ∧ s.counters.count = 1 ∧ size s = 0 := by
  apply exists_of_ends
  decide +kernel

end LogCache.Conservation
