import LogCache.Coherence

namespace LogCache.PutCoherence

open AvlTree Envelopes EnvelopeStore StoreSteps Interleaving Coherence

variable {s s' : Sys}

section putBegin

variable {e : Envelope} {sourceId : String}

theorem putBegin_lookup {src : String} {tree : Nat}
    (ht : s.storageIndex.lookup src = some tree) :
    (s.putBegin e sourceId).storageIndex.lookup src = some tree := by
  rw [Sys.putBegin]
  dsimp only
  cases hl : s.storageIndex.lookup sourceId with
  | some t => exact ht
  | none =>
      have hne : src ≠ sourceId := by
        rintro rfl
        rw [hl] at ht
        cases ht
      dsimp only
      rw [SyncMap.lookup_insert_eq, if_neg hne]
      exact ht

theorem putBegin_content (h : Linked s) (e : Envelope) (sourceId : String) :
    content (s.putBegin e sourceId) = content s := by
  rw [Sys.putBegin]
  dsimp only
  cases hl : s.storageIndex.lookup sourceId with
  | some t => rfl
  | none =>
      funext src
      rw [content, content]
      dsimp only
      rw [SyncMap.lookup_insert_eq]
      by_cases hsrc : src = sourceId
      · rw [if_pos hsrc, hsrc, hl]
        dsimp only
        rw [Function.update_self]
        rfl
      · rw [if_neg hsrc]
        cases ht : s.storageIndex.lookup src with
        | none => rfl
        | some t =>
            have hne : t ≠ s.next := (h.allocated src t ht).ne
            simp only [Function.update_of_ne hne]

theorem putBegin_size (h : Linked s) : size (s.putBegin e sourceId) = size s := by
  rw [Sys.putBegin]
  dsimp only
  cases hl : s.storageIndex.lookup sourceId with
  | some t => rfl
  | none =>
      rw [size]
      dsimp only
      rw [SyncMap.total_insert_new _ hl, Function.update_self, size]
      have hz : Storage.new.tree.size = 0 := rfl
      rw [hz, Nat.zero_add]
      apply SyncMap.total_congr
      intro src t ht
      rw [Function.update_of_ne (h.allocated src t ht).ne]

theorem putBegin_puts (s : Sys) (e : Envelope) (sourceId : String) :
    ∃ tree, (s.putBegin e sourceId).puts = s.puts ++ [⟨e, sourceId, tree⟩] ∧
      (s.putBegin e sourceId).storageIndex.lookup sourceId = some tree := by
  rw [Sys.putBegin]
  dsimp only
  cases hl : s.storageIndex.lookup sourceId with
  | some t => exact ⟨t, rfl, hl⟩
  | none => exact ⟨s.next, rfl, AList.lookup_insert _⟩

theorem putBegin_index (h : Linked s) (e : Envelope) (sourceId : String) :
    (∀ src tree, (s.putBegin e sourceId).storageIndex.lookup src = some tree →
      tree < (s.putBegin e sourceId).next) ∧
      ∀ src src' tree, (s.putBegin e sourceId).storageIndex.lookup src = some tree →
        (s.putBegin e sourceId).storageIndex.lookup src' = some tree → src = src' := by
  rw [Sys.putBegin]
  dsimp only
  cases hl : s.storageIndex.lookup sourceId with
  | some t => exact ⟨h.allocated, h.unshared⟩
  | none =>
      dsimp only
      constructor
      · refine SyncMap.forall_insert (Nat.lt_succ_self _) fun src tree _ ht => ?_
        exact (h.allocated src tree ht).trans (Nat.lt_succ_self _)
      · intro src src' tree ht ht'
        rw [SyncMap.lookup_insert_eq] at ht ht'
        split_ifs at ht ht' with hs hs'
        · rw [hs, hs']
        · cases ht
          exact absurd (h.allocated src' _ ht') (lt_irrefl _)
        · cases ht'
          exact absurd (h.allocated src _ ht) (lt_irrefl _)
        · exact h.unshared src src' tree ht ht'

theorem lookup_of_putBegin {src : String} {tree : Nat}
    (ht : (s.putBegin e sourceId).storageIndex.lookup src = some tree) :
    s.storageIndex.lookup src = some tree ∨ tree = s.next := by
  rw [Sys.putBegin] at ht
  dsimp only at ht
  cases hl : s.storageIndex.lookup sourceId with
  | some t =>
      rw [hl] at ht
      exact Or.inl ht
  | none =>
      rw [hl] at ht
      dsimp only at ht
      rw [SyncMap.lookup_insert_eq] at ht
      split_ifs at ht
      · cases ht
        exact Or.inr rfl
      · exact Or.inl ht

theorem putBegin_frame (s : Sys) (e : Envelope) (sourceId : String) :
    (s.putBegin e sourceId).config = s.config ∧ (s.putBegin e sourceId).metas = s.metas ∧
      (s.putBegin e sourceId).filled = s.filled ∧ s.next ≤ (s.putBegin e sourceId).next := by
  rw [Sys.putBegin]
  dsimp only
  cases s.storageIndex.lookup sourceId
  · exact ⟨rfl, rfl, rfl, Nat.le_succ _⟩
  · exact ⟨rfl, rfl, rfl, le_rfl⟩

theorem putBegin_rest (s : Sys) (e : Envelope) (sourceId : String) :
    (s.putBegin e sourceId).truncation = s.truncation ∧
      (s.putBegin e sourceId).started = e :: s.started ∧
      (s.putBegin e sourceId).returned = s.returned ∧ (s.putBegin e sourceId).removed = s.removed ∧
      (s.putBegin e sourceId).counters.count = s.counters.count ∧
      (s.putBegin e sourceId).counters.expired = s.counters.expired := by
  rw [Sys.putBegin]
  dsimp only
  cases s.storageIndex.lookup sourceId <;> exact ⟨rfl, rfl, rfl, rfl, rfl, rfl⟩

theorem putBegin_coherent (h : Coherent s) (hfresh : ∀ e' ∈ s.started, e'.timestamp ≠ e.timestamp) :
    Coherent (s.putBegin e sourceId) := by
  obtain ⟨tree, hputs, hlookup⟩ := putBegin_puts s e sourceId
  obtain ⟨htrunc, hstarted, hreturned, hremoved, hcount, hexpired⟩ := putBegin_rest s e sourceId
  have hcontent := putBegin_content h.toLinked e sourceId
  have hindex := putBegin_index h.toLinked e sourceId
  refine ⟨⟨hindex.1, hindex.2, ?_, ?_, ?_⟩, ⟨?_, ?_, ?_⟩, ⟨?_, ?_, ?_⟩⟩
  · intro p hp
    rw [hputs, List.mem_append, List.mem_singleton] at hp
    rcases hp with hp | rfl
    · exact putBegin_lookup (h.held p hp)
    · exact hlookup
  · intro x hx
    rw [htrunc] at hx
    exact putBegin_lookup (h.heap x hx)
  · rw [htrunc]
    exact h.once
  · intro src q hq
    rw [hcontent] at hq
    rw [hstarted]
    exact ⟨(h.unfudged src q hq).1, List.mem_cons_of_mem _ (h.unfudged src q hq).2⟩
  · intro p hp
    rw [hputs, List.mem_append, List.mem_singleton] at hp
    rw [hstarted, hcontent]
    rcases hp with hp | rfl
    · exact ⟨List.mem_cons_of_mem _ (h.pending p hp).1, (h.pending p hp).2⟩
    · exact ⟨List.mem_cons_self, fun src q hq => hfresh q.2 (h.unfudged src q hq).2⟩
  · rw [hputs, List.map_append, List.nodup_append]
    refine ⟨h.nodup, List.nodup_singleton _, ?_⟩
    intro t ht t' ht'
    obtain ⟨p, hp, rfl⟩ := List.mem_map.mp ht
    rw [List.map_singleton, List.mem_singleton] at ht'
    subst ht'
    exact hfresh p.envelope (h.pending p hp).1
  · rw [hcount, putBegin_size h.toLinked]
    exact h.count
  · rw [hreturned, hremoved, hcontent]
    exact h.returned
  · rw [hremoved, hexpired]
    exact h.expired

end putBegin

section putEnd

theorem putEnd_ok {i : Nat} (h : s.putEnd i = .ok s') :
    ∃ p counters storage, s.puts[i]? = some p ∧
      Inserted s.config s.counters (s.trees p.tree) p.envelope counters storage ∧
      s' = { s with counters := counters, trees := Function.update s.trees p.tree storage,
                    puts := s.puts.eraseIdx i, returned := p.envelope :: s.returned,
                    removed := evicted s.config (s.trees p.tree) ++ s.removed, filled :=
                      p.tree :: s.filled } := by
  rw [Sys.putEnd] at h
  split at h
  · cases h
  · rename_i p hp
    split at h
    · cases h
    · rename_i counters storage hins
      cases h
      exact ⟨p, counters, storage, hp, insertOrSwap_inserted hins, rfl⟩

theorem map_evicted (config : Config) (storage : Storage) :
    storage.tree.entries.map Prod.snd =
      evicted config storage ++ (roomFor config storage.tree).entries.map Prod.snd := by
  rw [roomFor_entries config storage.tree, List.map_append, evicted]
  congr 1
  split_ifs
  · cases storage.tree.left <;> rfl
  · rfl

theorem length_evicted (config : Config) (storage : Storage) :
    (evicted config storage).length + (roomFor config storage.tree).size = storage.tree.size := by
  have h := congrArg List.length (map_evicted config storage)
  rw [List.length_append, List.length_map, List.length_map] at h
  rw [Tree.size_eq_length, Tree.size_eq_length, h]

theorem ne_of_mem_eraseIdx {α β : Type} (f : α → β) {xs : List α} (h : (xs.map f).Nodup)
    {i : Nat} {x y : α} (hx : xs[i]? = some x) (hy : y ∈ xs.eraseIdx i) : f y ≠ f x := by
  obtain ⟨hi, rfl⟩ := List.getElem?_eq_some_iff.mp hx
  have hperm := (List.getElem_cons_eraseIdx_perm hi).map f
  rw [List.map_cons] at hperm
  intro heq
  apply (List.nodup_cons.mp (hperm.nodup_iff.mpr h)).1
  rw [← heq]
  exact List.mem_map_of_mem hy

section

variable {p : PutCall}

theorem content_held (h : Coherent s) (hp : p ∈ s.puts) :
    content s p.sourceId = (s.trees p.tree).tree.entries := by
  rw [content, h.held p hp]

theorem mem_content_of_roomFor (h : Coherent s) (hp : p ∈ s.puts) {q : Int64 × Envelope}
    (hq : q ∈ (roomFor s.config (s.trees p.tree).tree).entries) : q ∈ content s p.sourceId := by
  rw [content_held h hp, roomFor_entries s.config]
  exact List.mem_append_right _ hq

theorem inserted_perm (h : Coherent s) (hp : p ∈ s.puts) {counters : Counters} {storage : Storage}
    (hi : Inserted s.config s.counters (s.trees p.tree) p.envelope counters storage) :
    storage.tree.entries.Perm
      ((p.envelope.timestamp, p.envelope) :: (roomFor s.config (s.trees p.tree).tree).entries) := by
  apply hi.of_free
  apply Tree.get_eq_none.mpr
  intro e he
  have hq := mem_content_of_roomFor h hp he
  exact (h.pending p hp).2 _ _ hq (h.unfudged _ _ hq).1.symm

theorem mem_inserted (h : Coherent s) (hp : p ∈ s.puts) {counters : Counters} {storage : Storage}
    (hi : Inserted s.config s.counters (s.trees p.tree) p.envelope counters storage) {src : String}
    {q : Int64 × Envelope}
    (hq : q ∈ Function.update (content s) p.sourceId storage.tree.entries src) :
    q = (p.envelope.timestamp, p.envelope) ∨ q ∈ content s src := by
  by_cases hsrc : src = p.sourceId
  · subst hsrc
    rw [Function.update_self] at hq
    rcases List.mem_cons.mp ((inserted_perm h hp hi).mem_iff.mp hq) with rfl | hq
    · exact Or.inl rfl
    · exact Or.inr (mem_content_of_roomFor h hp hq)
  · rw [Function.update_of_ne hsrc] at hq
    exact Or.inr hq

end

theorem putEnd_coherent {i : Nat} (h : Coherent s) (hs : s.putEnd i = .ok s') : Coherent s' := by
  obtain ⟨p, counters, storage, hp, hi, rfl⟩ := putEnd_ok hs
  have hmem : p ∈ s.puts := List.mem_of_getElem? hp
  have hl := h.held p hmem
  have hold := content_held h hmem
  have hperm := inserted_perm h hmem hi
  have hcontent := content_update h.toLinked hl storage
  have hsize := size_update h.toLinked hl storage
  refine ⟨⟨h.allocated, h.unshared, ?_, h.heap, h.once⟩, ⟨?_, ?_, ?_⟩, ⟨?_, ?_, ?_⟩⟩
  · intro p' hp'
    exact h.held p' (List.mem_of_mem_eraseIdx hp')
  · intro src q hq
    rcases mem_inserted h hmem hi (hcontent ▸ hq) with rfl | hq
    · exact ⟨rfl, (h.pending p hmem).1⟩
    · exact h.unfudged src q hq
  · intro p' hp'
    have hp'' := h.pending p' (List.mem_of_mem_eraseIdx hp')
    refine ⟨hp''.1, fun src q hq => ?_⟩
    rcases mem_inserted h hmem hi (hcontent ▸ hq) with rfl | hq
    · exact (ne_of_mem_eraseIdx (fun p => p.envelope.timestamp) h.nodup hp hp').symm
    · exact hp''.2 src q hq
  · exact h.nodup.sublist ((List.eraseIdx_sublist _ _).map _)
  · have hcount := hi.count
    have hgrown := hperm.length_eq
    rw [List.length_cons, ← Tree.size_eq_length, ← Tree.size_eq_length] at hgrown
    have hc := h.count
    change counters.count = (size { s with trees := Function.update s.trees p.tree storage } : Nat)
    omega
  · change ∀ e ∈ p.envelope :: s.returned, e ∈ evicted s.config (s.trees p.tree) ++ s.removed ∨
      ∃ src, ∃ q ∈ content { s with trees := Function.update s.trees p.tree storage } src, q.2 = e
    rw [hcontent]
    intro e he
    rcases List.mem_cons.mp he with rfl | he
    · refine Or.inr ⟨p.sourceId, (p.envelope.timestamp, p.envelope), ?_, rfl⟩
      rw [Function.update_self]
      exact hperm.mem_iff.mpr List.mem_cons_self
    · refine accounted_update (hold ▸ map_evicted s.config (s.trees p.tree)) (fun q hq => ?_)
        (h.returned e he)
      exact hperm.mem_iff.mpr (List.mem_cons_of_mem _ hq)
  · have hexpired := hi.expired
    have hlen := length_evicted s.config (s.trees p.tree)
    have hx := h.expired
    dsimp only
    rw [List.length_append]
    omega

end putEnd

end LogCache.PutCoherence
