import LogCache.Interleaving

namespace LogCache.Coherence

open AvlTree Envelopes EnvelopeStore StoreSteps Interleaving Runs

variable {s s' : Sys}

def heapOf : Truncation → List Expiration
  | .building _ _ heap | .pruning _ heap => heap
  | .idle | .loaded _ => []

def content (s : Sys) (sourceId : String) : List (Int64 × Envelope) :=
  match s.storageIndex.lookup sourceId with
  | none => []
  | some tree => (s.trees tree).tree.entries

def size (s : Sys) : Nat := SyncMap.total (fun tree => (s.trees tree).tree.size) s.storageIndex

/-- The pointers are in order: indexed trees are allocated and not shared, and
every pointer that a call carries is the indexed one. -/
structure Linked (s : Sys) : Prop where
  allocated : ∀ sourceId tree, s.storageIndex.lookup sourceId = some tree → tree < s.next
  unshared : ∀ sourceId sourceId' tree, s.storageIndex.lookup sourceId = some tree →
    s.storageIndex.lookup sourceId' = some tree → sourceId = sourceId'
  held : ∀ p ∈ s.puts, s.storageIndex.lookup p.sourceId = some p.tree
  heap : ∀ x ∈ heapOf s.truncation, s.storageIndex.lookup x.sourceId = some x.tree
  once : ((heapOf s.truncation).map Expiration.sourceId).Nodup

/-- Stored envelopes and those on their way have timestamps of their own, and
each stored one is under its timestamp. -/
structure Distinct (s : Sys) : Prop where
  unfudged : ∀ sourceId, ∀ q ∈ content s sourceId, q.1 = q.2.timestamp ∧ q.2 ∈ s.started
  pending : ∀ p ∈ s.puts, p.envelope ∈ s.started ∧
    ∀ sourceId, ∀ q ∈ content s sourceId, q.2.timestamp ≠ p.envelope.timestamp
  nodup : (s.puts.map fun p => p.envelope.timestamp).Nodup

/-- Nothing is lost: what a Put has returned from is stored or was taken out,
and the counters agree. -/
structure Conserved (s : Sys) : Prop where
  count : s.counters.count = size s
  returned : ∀ e ∈ s.returned, e ∈ s.removed ∨ ∃ sourceId, ∃ q ∈ content s sourceId, q.2 = e
  expired : s.removed.length = s.counters.expired

structure Coherent (s : Sys) : Prop extends Linked s, Distinct s, Conserved s

section content

variable {sourceId : String} {tree : Nat}

theorem Linked.ne_of_ne (h : Linked s) (hl : s.storageIndex.lookup sourceId = some tree)
    {src : String} {t : Nat} (hsrc : src ≠ sourceId) (ht : s.storageIndex.lookup src = some t) :
    t ≠ tree := by
  rintro rfl
  exact hsrc (h.unshared src sourceId t ht hl)

theorem content_update (h : Linked s) (hl : s.storageIndex.lookup sourceId = some tree)
    (storage : Storage) :
    content { s with trees := Function.update s.trees tree storage } =
      Function.update (content s) sourceId storage.tree.entries := by
  funext src
  by_cases hsrc : src = sourceId
  · subst hsrc
    simp only [content, hl, Function.update_self]
  · rw [Function.update_of_ne hsrc, content, content]
    cases ht : s.storageIndex.lookup src with
    | none => rfl
    | some t => simp only [Function.update_of_ne (h.ne_of_ne hl hsrc ht)]

theorem content_erase (h : Linked s) (hl : s.storageIndex.lookup sourceId = some tree)
    (storage : Storage) :
    content { s with trees := Function.update s.trees tree storage,
                     storageIndex := s.storageIndex.erase sourceId } =
      Function.update (content s) sourceId [] := by
  funext src
  by_cases hsrc : src = sourceId
  · subst hsrc
    rw [Function.update_self, content, SyncMap.lookup_erase_eq, if_pos rfl]
  · rw [Function.update_of_ne hsrc, content, content, SyncMap.lookup_erase_eq, if_neg hsrc]
    cases ht : s.storageIndex.lookup src with
    | none => rfl
    | some t => simp only [Function.update_of_ne (h.ne_of_ne hl hsrc ht)]

theorem total_erase_update (h : Linked s) (hl : s.storageIndex.lookup sourceId = some tree)
    (storage : Storage) :
    SyncMap.total (fun t => (Function.update s.trees tree storage t).tree.size)
      (s.storageIndex.erase sourceId) =
      SyncMap.total (fun t => (s.trees t).tree.size) (s.storageIndex.erase sourceId) := by
  apply SyncMap.total_congr
  intro src t ht
  rw [SyncMap.lookup_erase_eq] at ht
  split_ifs at ht with hsrc
  rw [Function.update_of_ne (h.ne_of_ne hl hsrc ht)]

theorem size_eq (hl : s.storageIndex.lookup sourceId = some tree) :
    size s = (s.trees tree).tree.size +
    SyncMap.total (fun t => (s.trees t).tree.size) (s.storageIndex.erase sourceId) :=
  SyncMap.total_of_lookup _ hl

theorem size_update (h : Linked s) (hl : s.storageIndex.lookup sourceId = some tree)
    (storage : Storage) :
    size { s with trees := Function.update s.trees tree storage } + (s.trees tree).tree.size =
      size s + storage.tree.size := by
  rw [size_eq hl, size_eq (s := { s with trees := Function.update s.trees tree storage }) hl]
  dsimp only
  rw [total_erase_update h hl, Function.update_self]
  omega

end content

theorem Distinct.mono (h : Distinct s) (hcontent : ∀ src, ∀ q ∈ content s' src, q ∈ content s src)
    (hstarted : s'.started = s.started) (hputs : s'.puts = s.puts) : Distinct s' := by
  refine ⟨fun src q hq => ?_, fun p hp => ?_, ?_⟩
  · rw [hstarted]
    exact h.unfudged src q (hcontent src q hq)
  · rw [hputs] at hp
    rw [hstarted]
    exact ⟨(h.pending p hp).1, fun src q hq => (h.pending p hp).2 src q (hcontent src q hq)⟩
  · rw [hputs]
    exact h.nodup

theorem mem_of_mem_update {sourceId : String} {new : List (Int64 × Envelope)}
    (hnew : ∀ q ∈ new, q ∈ content s sourceId) (src : String) (q : Int64 × Envelope)
    (hq : q ∈ Function.update (content s) sourceId new src) : q ∈ content s src := by
  by_cases hsrc : src = sourceId
  · subst hsrc
    rw [Function.update_self] at hq
    exact hnew q hq
  · rwa [Function.update_of_ne hsrc] at hq

theorem accounted_update {sourceId : String} {gone : List Envelope}
    {kept new : List (Int64 × Envelope)}
    (hold : (content s sourceId).map Prod.snd = gone ++ kept.map Prod.snd)
    (hkept : ∀ q ∈ kept, q ∈ new) {e : Envelope}
    (h : e ∈ s.removed ∨ ∃ src, ∃ q ∈ content s src, q.2 = e) :
    e ∈ gone ++ s.removed ∨ ∃ src, ∃ q ∈ Function.update (content s) sourceId new src, q.2 = e := by
  rcases h with h | ⟨src, q, hq, rfl⟩
  · exact Or.inl (List.mem_append_right _ h)
  · by_cases hsrc : src = sourceId
    · subst hsrc
      have hmem := List.mem_map_of_mem (f := Prod.snd) hq
      rw [hold, List.mem_append] at hmem
      rcases hmem with hgone | hmem
      · exact Or.inl (List.mem_append_left _ hgone)
      · obtain ⟨q', hq', heq⟩ := List.mem_map.mp hmem
        refine Or.inr ⟨src, q', ?_, heq⟩
        rw [Function.update_self]
        exact hkept q' hq'
    · refine Or.inr ⟨src, q, ?_, rfl⟩
      rw [Function.update_of_ne hsrc]
      exact hq

/-- A step that touches neither the trees nor the Puts: the counters that are
accounted for stay, and the heap gains at most an indexed tree. -/
structure Quiet (s s' : Sys) : Prop where
  same : s' = { s with counters := s'.counters, truncation := s'.truncation, metas := s'.metas }
  count : s'.counters.count = s.counters.count
  expired : s'.counters.expired = s.counters.expired
  heap : ∀ x ∈ heapOf s'.truncation, x ∈ heapOf s.truncation ∨
    s.storageIndex.lookup x.sourceId = some x.tree
  once : ((heapOf s.truncation).map Expiration.sourceId).Nodup →
    ((heapOf s'.truncation).map Expiration.sourceId).Nodup

theorem Quiet.coherent (hq : Quiet s s') (h : Coherent s) : Coherent s' := by
  have hheap : ∀ x ∈ heapOf s'.truncation, s.storageIndex.lookup x.sourceId = some x.tree := by
    intro x hx
    rcases hq.heap x hx with hx | hx
    · exact h.heap x hx
    · exact hx
  have honce := hq.once h.once
  have hcount := hq.count.trans h.count
  have hexpired := h.expired.trans hq.expired.symm
  rw [hq.same]
  exact ⟨⟨h.allocated, h.unshared, h.held, hheap, honce⟩, ⟨h.unfudged, h.pending, h.nodup⟩,
    ⟨hcount, h.returned, hexpired⟩⟩

theorem quiet_metas (s : Sys) (metas : List MetaCall) : Quiet s { s with metas := metas } :=
  ⟨rfl, rfl, rfl, fun _ hx => Or.inl hx, id⟩

theorem truncateBegin_quiet {quantity : Int} (h : s.truncateBegin quantity = .ok s') :
    Quiet s s' := by
  rw [Sys.truncateBegin] at h
  split at h
  · split_ifs at h
    · cases h
      exact ⟨rfl, rfl, rfl, fun _ hx => Or.inl hx, id⟩
    · cases h
      exact ⟨rfl, rfl, rfl, fun _ hx => absurd hx List.not_mem_nil, fun _ => List.nodup_nil⟩
  · cases h

theorem rangeBegin_quiet (h : s.rangeBegin = .ok s') : Quiet s s' := by
  rw [Sys.rangeBegin] at h
  split at h
  · cases h
    exact ⟨rfl, rfl, rfl, fun _ hx => absurd hx List.not_mem_nil, fun _ => List.nodup_nil⟩
  · cases h

theorem heapVisit_ok {sourceId : String} (h : s.heapVisit sourceId = .ok s') :
    ∃ n due heap tree p, s.truncation = .building n due heap ∧
      s.storageIndex.lookup sourceId = some tree ∧
      sourceId ∉ heap.map Expiration.sourceId ∧ (s.trees tree).tree.left = some p ∧
      s' = { s with truncation := .building n (due.erase sourceId)
                      (BinaryHeap.push Expiration.timestamp heap ⟨p.1, sourceId, tree⟩) } := by
  rw [Sys.heapVisit] at h
  split at h
  · rename_i n due heap tree htrunc hlookup
    split_ifs at h with hvisited
    cases hleft : (s.trees tree).tree.left with
    | none => rw [hleft] at h; cases h
    | some p =>
        rw [hleft] at h
        cases h
        exact ⟨n, due, heap, tree, p, htrunc, hlookup, hvisited, hleft, rfl⟩
  · cases h

theorem heapVisit_quiet {sourceId : String} (h : s.heapVisit sourceId = .ok s') : Quiet s s' := by
  obtain ⟨n, due, heap, tree, p, htrunc, hlookup, hvisited, _, rfl⟩ := heapVisit_ok h
  have hperm : (BinaryHeap.push Expiration.timestamp heap ⟨p.1, sourceId, tree⟩).Perm
      (⟨p.1, sourceId, tree⟩ :: heap) :=
    BinaryHeap.push_perm _ _
  refine ⟨rfl, rfl, rfl, ?_, ?_⟩
  · intro x hx
    rw [htrunc]
    rcases List.mem_cons.mp (hperm.mem_iff.mp hx) with rfl | hx
    · exact Or.inr hlookup
    · exact Or.inl hx
  · rw [htrunc]
    intro hnodup
    exact (hperm.map _).nodup_iff.mpr (List.nodup_cons.mpr ⟨hvisited, hnodup⟩)

theorem rangeEnd_ok (h : s.rangeEnd = .ok s') :
    ∃ n heap, s.truncation = .building n [] heap ∧
      s' = { s with truncation := .pruning n heap } := by
  rw [Sys.rangeEnd] at h
  split at h
  · rename_i n heap htrunc
    cases h
    exact ⟨n, heap, htrunc, rfl⟩
  · cases h

theorem rangeEnd_quiet (h : s.rangeEnd = .ok s') : Quiet s s' := by
  obtain ⟨n, heap, htrunc, rfl⟩ := rangeEnd_ok h
  refine ⟨rfl, rfl, rfl, ?_, ?_⟩
  · intro x hx
    rw [htrunc]
    exact Or.inl hx
  · rw [htrunc]
    exact id

theorem truncateEnd_quiet (h : s.truncateEnd = .ok s') : Quiet s s' := by
  rw [Sys.truncateEnd] at h
  split at h
  · rename_i heap _
    cases h
    have hc := afterPruning_count s.config s.counters (heap.getLast?.map Expiration.timestamp)
    exact ⟨rfl, hc.1, hc.2, fun _ hx => absurd hx List.not_mem_nil, fun _ => List.nodup_nil⟩
  · cases h

theorem metaVisit_quiet {i : Nat} {sourceId : String} (h : s.metaVisit i sourceId = .ok s') :
    Quiet s s' := by
  rw [Sys.metaVisit] at h
  split at h
  · split_ifs at h
    cases h
    exact quiet_metas s _
  · cases h

theorem metaTurn_quiet {i : Nat} (h : s.metaTurn i = .ok s') : Quiet s s' := by
  rw [Sys.metaTurn] at h
  split at h
  · cases h
    exact quiet_metas s _
  · cases h

theorem metaLoad_quiet {i : Nat} {sourceId : String} (h : s.metaLoad i sourceId = .ok s') :
    Quiet s s' := by
  rw [Sys.metaLoad] at h
  split at h
  · split_ifs at h
    split at h
    · cases h
    · cases h
      exact quiet_metas s _
  · cases h

theorem metaEnd_quiet {i : Nat} (h : s.metaEnd i = .ok s') : Quiet s s' := by
  rw [Sys.metaEnd] at h
  split at h
  · cases h
    exact quiet_metas s _
  · cases h

theorem step_cases {event : Event} (h : step s event = .ok s') :
    (∃ e sourceId, event = .putBegin e sourceId ∧ s' = s.putBegin e sourceId) ∨
      (∃ i, event = .putEnd i ∧ s.putEnd i = .ok s') ∨ (event = .prune ∧ s.prune = .ok s') ∨
      ((∀ e sourceId, event ≠ .putBegin e sourceId) ∧ Quiet s s') := by
  cases event with
  | putBegin e sourceId =>
      cases h
      exact Or.inl ⟨e, sourceId, rfl, rfl⟩
  | putEnd i => exact Or.inr (Or.inl ⟨i, rfl, h⟩)
  | prune => exact Or.inr (Or.inr (Or.inl ⟨rfl, h⟩))
  | truncateBegin quantity => exact Or.inr (Or.inr (Or.inr ⟨nofun, truncateBegin_quiet h⟩))
  | rangeBegin => exact Or.inr (Or.inr (Or.inr ⟨nofun, rangeBegin_quiet h⟩))
  | heapVisit sourceId => exact Or.inr (Or.inr (Or.inr ⟨nofun, heapVisit_quiet h⟩))
  | rangeEnd => exact Or.inr (Or.inr (Or.inr ⟨nofun, rangeEnd_quiet h⟩))
  | truncateEnd => exact Or.inr (Or.inr (Or.inr ⟨nofun, truncateEnd_quiet h⟩))
  | metaBegin =>
      cases h
      exact Or.inr (Or.inr (Or.inr ⟨nofun, quiet_metas s _⟩))
  | metaVisit i sourceId => exact Or.inr (Or.inr (Or.inr ⟨nofun, metaVisit_quiet h⟩))
  | metaTurn i => exact Or.inr (Or.inr (Or.inr ⟨nofun, metaTurn_quiet h⟩))
  | metaLoad i sourceId => exact Or.inr (Or.inr (Or.inr ⟨nofun, metaLoad_quiet h⟩))
  | metaEnd i => exact Or.inr (Or.inr (Or.inr ⟨nofun, metaEnd_quiet h⟩))

end LogCache.Coherence
