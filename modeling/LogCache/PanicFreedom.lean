import LogCache.Readiness

namespace LogCache.PanicFreedom

open AvlTree Envelopes EnvelopeStore StoreSteps Interleaving Runs Coherence Conservation Readiness

variable {s s' : Sys}

section truncation

theorem truncateBegin_ready {quantity : Int} (hc : Coherent s) (h : Ready s)
    (hs : s.truncateBegin quantity = .ok s') : Ready s' := by
  rw [Sys.truncateBegin] at hs
  split at hs
  · split_ifs at hs
    · cases hs
      exact ⟨h.room, h.filled, h.stocked, h.heap, h.enough, h.metas⟩
    · cases hs
      refine ⟨h.room, h.filled, h.stocked, fun x hx => absurd hx List.not_mem_nil, ?_, h.metas⟩
      change (numberToPrune s.counters.count quantity).toNat ≤ size s
      have hcount := hc.count
      rw [numberToPrune]
      split_ifs <;> omega
  · cases hs

theorem rangeBegin_ready (h : Ready s) (hs : s.rangeBegin = .ok s') : Ready s' := by
  have henough := h.enough
  rw [Sys.rangeBegin] at hs
  split at hs
  · rename_i n htrunc
    cases hs
    refine ⟨h.room, h.filled, h.stocked, fun x hx => absurd hx List.not_mem_nil, ?_, h.metas⟩
    rw [prunable, htrunc] at henough
    change n ≤ supply s (s.storageIndex.keys ++ [])
    rw [List.append_nil, supply_keys]
    exact henough
  · cases hs

theorem heapVisit_ready {sourceId : String} (h : Ready s) (hs : s.heapVisit sourceId = .ok s') :
    Ready s' := by
  obtain ⟨n, due, heap, tree, p, htrunc, hlookup, _, hleft, rfl⟩ := heapVisit_ok hs
  have hperm : (BinaryHeap.push Expiration.timestamp heap ⟨p.1, sourceId, tree⟩).Perm
      (⟨p.1, sourceId, tree⟩ :: heap) :=
    BinaryHeap.push_perm _ _
  have hheap := h.heap
  have henough := h.enough
  rw [prunable, htrunc] at henough
  rw [htrunc] at hheap
  refine ⟨h.room, h.filled, h.stocked, ?_, ?_, h.metas⟩
  · intro x hx
    rcases List.mem_cons.mp (hperm.mem_iff.mp hx) with rfl | hx
    · change content s sourceId ≠ []
      rw [content, hlookup]
      intro hnil
      rw [Tree.left_eq_none.mpr ((Tree.size_eq_length _).trans
        (congrArg List.length hnil))] at hleft
      cases hleft
    · exact hheap x hx
  · -- the source goes from those due to the heap, or only onto the heap
    change n ≤ supply s (due.erase sourceId ++ _)
    refine henough.trans ?_
    dsimp only
    rw [supply_perm ((hperm.map _).append_left _), List.map_cons, supply_perm List.perm_middle]
    by_cases hdue : sourceId ∈ due
    · rw [supply_perm ((List.perm_cons_erase hdue).append_right _)]
      exact le_rfl
    · rw [List.erase_of_not_mem hdue, supply_cons]
      exact Nat.le_add_left _ _

theorem rangeEnd_ready (h : Ready s) (hs : s.rangeEnd = .ok s') : Ready s' := by
  obtain ⟨n, heap, htrunc, rfl⟩ := rangeEnd_ok hs
  have hheap := h.heap
  have henough := h.enough
  rw [prunable, htrunc] at henough
  rw [htrunc] at hheap
  exact ⟨h.room, h.filled, h.stocked, hheap, henough, h.metas⟩

theorem truncateEnd_ready (h : Ready s) (hs : s.truncateEnd = .ok s') : Ready s' := by
  rw [Sys.truncateEnd] at hs
  split at hs
  · cases hs
    exact ⟨h.room, h.filled, h.stocked, fun x hx => absurd hx List.not_mem_nil, le_rfl, h.metas⟩
  · cases hs

end truncation

section metas

variable {i : Nat}

theorem ready_set (h : Ready s) (i : Nat) (call : MetaCall)
    (hcall : ∀ src ∈ recorded call, src ∈ s.storageIndex) :
    Ready { s with metas := s.metas.set i call } := by
  refine ⟨h.room, h.filled, h.stocked, h.heap, h.enough, ?_⟩
  intro call' hcall'
  rcases List.mem_or_eq_of_mem_set hcall' with hcall' | rfl
  · exact h.metas call' hcall'
  · exact hcall

theorem metaBegin_ready (h : Ready s) (due : List String) :
    Ready { s with metas := s.metas ++ [.first due ∅] } := by
  refine ⟨h.room, h.filled, h.stocked, h.heap, h.enough, ?_⟩
  intro call hcall
  rw [List.mem_append, List.mem_singleton] at hcall
  rcases hcall with hcall | rfl
  · exact h.metas call hcall
  · exact fun src hsrc => absurd hsrc List.not_mem_nil

theorem metaVisit_ready {sourceId : String} (h : Ready s) (hs : s.metaVisit i sourceId = .ok s') :
    Ready s' := by
  rw [Sys.metaVisit] at hs
  split at hs
  · rename_i due report tree hcall hlookup
    split_ifs at hs
    cases hs
    refine ready_set h i _ fun src hsrc => ?_
    rcases AList.mem_insert _ |>.mp (AList.mem_keys.mpr hsrc) with rfl | hsrc
    · exact SyncMap.mem_iff_lookup.mpr ⟨tree, hlookup⟩
    · exact h.metas _ (List.mem_of_getElem? hcall) src hsrc
  · cases hs

theorem metaTurn_ready (h : Ready s) (hs : s.metaTurn i = .ok s') : Ready s' := by
  rw [Sys.metaTurn] at hs
  split at hs
  · rename_i report hcall
    cases hs
    exact ready_set h i _ fun src hsrc => h.metas _ (List.mem_of_getElem? hcall) src hsrc
  · cases hs

theorem metaLoad_ready {sourceId : String} (h : Ready s) (hs : s.metaLoad i sourceId = .ok s') :
    Ready s' := by
  rw [Sys.metaLoad] at hs
  split at hs
  · rename_i unread report hcall
    split_ifs at hs
    split at hs
    · cases hs
    · cases hs
      refine ready_set h i _ fun src hsrc => h.metas _ (List.mem_of_getElem? hcall) src ?_
      exact List.mem_of_mem_erase hsrc
  · cases hs

theorem metaEnd_ready (h : Ready s) (hs : s.metaEnd i = .ok s') : Ready s' := by
  rw [Sys.metaEnd] at hs
  split at hs
  · cases hs
    exact ⟨h.room, h.filled, h.stocked, h.heap, h.enough,
      fun call hcall => h.metas call (List.mem_of_mem_eraseIdx hcall)⟩
  · cases hs

end metas

theorem step_ready {event : Event} (hc : Coherent s) (h : Ready s) (hg : Guarded s event)
    (hs : step s event = .ok s') : Ready s' := by
  cases event with
  | putBegin e sourceId =>
      cases hs
      exact putBegin_ready hc.toLinked h e sourceId
  | putEnd i => exact putEnd_ready hc h hs
  | truncateBegin quantity => exact truncateBegin_ready hc h hs
  | rangeBegin => exact rangeBegin_ready h hs
  | heapVisit sourceId => exact heapVisit_ready h hs
  | rangeEnd => exact rangeEnd_ready h hs
  | prune => exact prune_ready hc h hg hs
  | truncateEnd => exact truncateEnd_ready h hs
  | metaBegin =>
      cases hs
      exact metaBegin_ready h _
  | metaVisit i sourceId => exact metaVisit_ready h hs
  | metaTurn i => exact metaTurn_ready h hs
  | metaLoad i sourceId => exact metaLoad_ready h hs
  | metaEnd i => exact metaEnd_ready h hs

section safe

variable {panic : Panic}

theorem putEnd_safe {i : Nat} (h : Ready s) : s.putEnd i ≠ .error (.panic panic) := by
  rw [Sys.putEnd]
  split
  · simp
  · rename_i p hp
    split
    · rename_i e he
      have hroom : ((s.trees p.tree).tree.size : Int) < s.config.maxPerSource ∨
          0 < (s.trees p.tree).tree.size := by
        have := h.room
        omega
      obtain ⟨counters, storage, hok, _⟩ :=
        insertOrSwap_ok s.config s.counters (s.trees p.tree) p.envelope hroom
      rw [hok] at he
      cases he
    · simp

theorem heapVisit_safe {sourceId : String} (h : Ready s) (hg : Guarded s (.heapVisit sourceId)) :
    s.heapVisit sourceId ≠ .error (.panic panic) := by
  rw [Sys.heapVisit]
  split
  · rename_i n due heap tree htrunc hlookup
    split_ifs
    · simp
    · have hstocked := h.stocked sourceId tree hlookup (hg tree hlookup)
      rw [content, hlookup] at hstocked
      cases hleft : (s.trees tree).tree.left with
      | none =>
          refine absurd (List.eq_nil_of_length_eq_zero ?_) hstocked
          exact (Tree.size_eq_length _).symm.trans (Tree.left_eq_none.mp hleft)
      | some p => simp
  · simp

theorem prune_safe (h : Ready s) : s.prune ≠ .error (.panic panic) := by
  have henough := h.enough
  rw [Sys.prune]
  split
  · rename_i n heap htrunc
    rw [prunable, htrunc] at henough
    have hne : heap ≠ [] := by
      rintro rfl
      exact absurd henough (Nat.not_succ_le_zero n)
    split
    · rename_i hpop
      exact absurd hpop (BinaryHeap.pop_ne_none hne)
    · rename_i oldest heap' hpop
      obtain ⟨s', hs', _⟩ := pruneTree_pruned s n oldest heap'
      rw [hs']
      simp
  · simp

theorem metaLoad_safe {i : Nat} {sourceId : String} (h : Ready s) :
    s.metaLoad i sourceId ≠ .error (.panic panic) := by
  rw [Sys.metaLoad]
  split
  · rename_i unread report hcall
    split_ifs with hunread
    · obtain ⟨tree, ht⟩ :=
        SyncMap.mem_iff_lookup.mp (h.metas _ (List.mem_of_getElem? hcall) sourceId hunread)
      rw [ht]
      simp
    · simp
  · simp

theorem step_safe {event : Event} (h : Ready s) (hg : Guarded s event) :
    step s event ≠ .error (.panic panic) := by
  cases event with
  | putBegin e sourceId => simp [step]
  | putEnd i => exact putEnd_safe h
  | truncateBegin quantity =>
      change s.truncateBegin quantity ≠ _
      rw [Sys.truncateBegin]
      split
      · split_ifs <;> simp
      · simp
  | rangeBegin =>
      change s.rangeBegin ≠ _
      rw [Sys.rangeBegin]
      split <;> simp
  | heapVisit sourceId => exact heapVisit_safe h hg
  | rangeEnd =>
      change s.rangeEnd ≠ _
      rw [Sys.rangeEnd]
      split <;> simp
  | prune => exact prune_safe h
  | truncateEnd =>
      change s.truncateEnd ≠ _
      rw [Sys.truncateEnd]
      split <;> simp
  | metaBegin => simp [step]
  | metaVisit i sourceId =>
      change s.metaVisit i sourceId ≠ _
      rw [Sys.metaVisit]
      split
      · split_ifs <;> simp
      · simp
  | metaTurn i =>
      change s.metaTurn i ≠ _
      rw [Sys.metaTurn]
      split <;> simp
  | metaLoad i sourceId => exact metaLoad_safe h
  | metaEnd i =>
      change s.metaEnd i ≠ _
      rw [Sys.metaEnd]
      split <;> simp

end safe

theorem initial_ready {maxPerSource : Int} (hmax : 1 ≤ maxPerSource) (prunesPerGC : Int) :
    Ready (initial maxPerSource prunesPerGC) where
  room := hmax
  filled _ h := absurd h List.not_mem_nil
  stocked _ _ h := by cases h
  heap _ h := absurd h List.not_mem_nil
  enough := le_rfl
  metas _ h := absurd h List.not_mem_nil

end LogCache.PanicFreedom
