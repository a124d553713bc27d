import LogCache.Interleaving
import LogCache.StoreTransitions

namespace LogCache.Quiescence

open Envelopes EnvelopeStore StoreTransitions Interleaving Runs

variable {s s' : Sys} {st st' : Store} {sourceId : String} {tree : Nat}

/-- The trees behind the pointers are the trees of a store. -/
structure Holds (s : Sys) (st : Store) : Prop where
  config : s.config = st.config
  counters : s.counters = st.counters
  index : ∀ sourceId, st.storageIndex.lookup sourceId = (s.storageIndex.lookup sourceId).map s.trees
  allocated : ∀ sourceId tree, s.storageIndex.lookup sourceId = some tree → tree < s.next
  unshared : ∀ sourceId sourceId' tree, s.storageIndex.lookup sourceId = some tree →
    s.storageIndex.lookup sourceId' = some tree → sourceId = sourceId'

theorem Holds.frame {s s' : Sys} {st : Store} (h : Holds s st) (hconfig : s'.config = s.config)
    (hcounters : s'.counters = s.counters) (hindex : s'.storageIndex = s.storageIndex)
    (htrees : s'.trees = s.trees) (hnext : s'.next = s.next) : Holds s' st := by
  refine ⟨hconfig.trans h.config, hcounters.trans h.counters, ?_, ?_, ?_⟩
  · rw [hindex, htrees]
    exact h.index
  · rw [hindex, hnext]
    exact h.allocated
  · rw [hindex]
    exact h.unshared

structure AtRest (st : Store) (s : Sys) : Prop where
  holds : Holds s st
  puts : s.puts = []
  truncation : s.truncation = .idle

section trees

theorem holds_update (h : Holds s st) (hlookup : s.storageIndex.lookup sourceId = some tree)
    (counters : Counters) (storage : Storage) :
    Holds { s with counters := counters, trees := Function.update s.trees tree storage }
      ⟨st.config, counters, st.storageIndex.insert sourceId storage⟩ := by
  refine ⟨h.config, rfl, ?_, h.allocated, h.unshared⟩
  intro source
  dsimp only
  rw [SyncMap.lookup_insert_eq]
  by_cases hsource : source = sourceId
  · rw [if_pos hsource, hsource, hlookup, Option.map_some, Function.update_self]
  · rw [if_neg hsource, h.index]
    cases htree : s.storageIndex.lookup source with
    | none => rfl
    | some tree' =>
        have hne : tree' ≠ tree := by
          rintro rfl
          exact hsource (h.unshared _ _ _ htree hlookup)
        rw [Option.map_some, Option.map_some, Function.update_of_ne hne]

theorem holds_allocate (h : Holds s st) (sourceId : String) :
    Holds { s with trees := Function.update s.trees s.next .new, next := s.next + 1,
                   storageIndex := s.storageIndex.insert sourceId s.next }
      { st with storageIndex := st.storageIndex.insert sourceId .new } := by
  have hbelow : ∀ source tree, s.storageIndex.lookup source = some tree → tree ≠ s.next :=
    fun source tree htree => (h.allocated source tree htree).ne
  refine ⟨h.config, h.counters, ?_, ?_, ?_⟩
  · intro source
    dsimp only
    rw [SyncMap.lookup_insert_eq, SyncMap.lookup_insert_eq]
    by_cases hsource : source = sourceId
    · rw [if_pos hsource, if_pos hsource, Option.map_some, Function.update_self]
    · rw [if_neg hsource, if_neg hsource, h.index]
      cases htree : s.storageIndex.lookup source with
      | none => rfl
      | some tree =>
          rw [Option.map_some, Option.map_some, Function.update_of_ne (hbelow source tree htree)]
  · refine SyncMap.forall_insert (Nat.lt_succ_self _) fun source tree _ htree => ?_
    exact Nat.lt_succ_of_lt (h.allocated source tree htree)
  · intro source source' tree htree htree'
    dsimp only at htree htree'
    rw [SyncMap.lookup_insert_eq] at htree htree'
    split_ifs at htree htree' with hsource hsource' hsource'
    · rw [hsource, hsource']
    · cases htree
      exact absurd rfl (hbelow source' _ htree')
    · cases htree'
      exact absurd rfl (hbelow source _ htree)
    · exact h.unshared source source' tree htree htree'

theorem holds_erase (h : Holds s st) (hlookup : s.storageIndex.lookup sourceId = some tree)
    (counters : Counters) (storage : Storage) :
    Holds { s with counters := counters, trees := Function.update s.trees tree storage,
                   storageIndex := s.storageIndex.erase sourceId }
      ⟨st.config, counters, st.storageIndex.erase sourceId⟩ := by
  have hupdate := holds_update h hlookup counters storage
  refine ⟨h.config, rfl, ?_, ?_, ?_⟩
  · intro source
    have hindex := hupdate.index source
    dsimp only at hindex ⊢
    rw [SyncMap.lookup_insert_eq] at hindex
    rw [SyncMap.lookup_erase_eq, SyncMap.lookup_erase_eq]
    by_cases hsource : source = sourceId
    · rw [if_pos hsource, if_pos hsource, Option.map_none]
    · rw [if_neg hsource] at hindex
      rw [if_neg hsource, if_neg hsource]
      exact hindex
  · intro source tree' htree
    exact h.allocated source tree' (SyncMap.lookup_erase_eq_some.mp htree).2
  · intro source source' tree' htree htree'
    exact h.unshared source source' tree' (SyncMap.lookup_erase_eq_some.mp htree).2
      (SyncMap.lookup_erase_eq_some.mp htree').2

end trees

section put

variable {e : Envelope}

theorem putBegin_holds (h : Holds s st) (e : Envelope) (sourceId : String) :
    ∃ tree st₁, (s.putBegin e sourceId).puts = s.puts ++ [⟨e, sourceId, tree⟩] ∧
      (s.putBegin e sourceId).truncation = s.truncation ∧
      (s.putBegin e sourceId).storageIndex.lookup sourceId = some tree ∧
      (s.putBegin e sourceId).trees tree = storageFor st sourceId ∧
      Holds (s.putBegin e sourceId) st₁ ∧ st₁.config = st.config ∧ st₁.counters = received st ∧
      ∀ storage, st₁.storageIndex.insert sourceId storage =
        st.storageIndex.insert sourceId storage := by
  have hcounted : Holds { s with counters := { s.counters with ingress := s.counters.ingress + 1 } }
      { st with counters := received st } :=
    ⟨h.config, by rw [received, h.counters], h.index, h.allocated, h.unshared⟩
  cases hlookup : s.storageIndex.lookup sourceId with
  | some tree =>
      have hbegin : s.putBegin e sourceId =
          { s with counters := { s.counters with ingress := s.counters.ingress + 1 },
                   started := e :: s.started
                   puts := s.puts ++ [⟨e, sourceId, tree⟩] } := by
        simp only [Sys.putBegin, hlookup]
      refine ⟨tree, { st with counters := received st }, ?_⟩
      rw [hbegin]
      refine ⟨rfl, rfl, hlookup, ?_, ?_, rfl, rfl, fun _ => rfl⟩
      · rw [storageFor, h.index, hlookup]
        rfl
      · exact ⟨hcounted.config, hcounted.counters, hcounted.index, hcounted.allocated,
          hcounted.unshared⟩
  | none =>
      have hbegin : s.putBegin e sourceId =
          { s with counters := { s.counters with ingress := s.counters.ingress + 1 },
                   started := e :: s.started
                   trees := Function.update s.trees s.next .new, next := s.next + 1
                   storageIndex := s.storageIndex.insert sourceId s.next
                   puts := s.puts ++ [⟨e, sourceId, s.next⟩] } := by
        simp only [Sys.putBegin, hlookup]
      have hnew := holds_allocate hcounted sourceId
      refine ⟨s.next, { st with
        counters := received st
        storageIndex := st.storageIndex.insert sourceId .new }, ?_⟩
      rw [hbegin]
      refine ⟨rfl, rfl, AList.lookup_insert _, ?_, ?_, rfl, rfl, ?_⟩
      · rw [storageFor, h.index, hlookup]
        exact Function.update_self ..
      · exact ⟨hnew.config, hnew.counters, hnew.index, hnew.allocated, hnew.unshared⟩
      · exact fun storage => AList.insert_insert _

theorem put_simulates (h : AtRest st s) (hput : st.put e sourceId = .ok st') :
    ∃ s', run step s [.putBegin e sourceId, .putEnd 0] = .ok s' ∧ AtRest st' s' := by
  obtain ⟨tree, st₁, hputs, htruncation, hlookup, htree, hholds, hconfig, hcounters, hinsert⟩ :=
    putBegin_holds h.holds e sourceId
  rw [put_eq] at hput
  obtain ⟨⟨counters, storage⟩, hins, hput⟩ := bind_ok hput
  cases hput
  rw [h.puts, List.nil_append] at hputs
  have hend := holds_update hholds hlookup counters storage
  rw [hinsert, hconfig] at hend
  have hstep : step (s.putBegin e sourceId) (.putEnd 0) = .ok
      { s.putBegin e sourceId with
        counters := counters, trees :=
          Function.update (s.putBegin e sourceId).trees tree storage, puts := []
        returned := e :: (s.putBegin e sourceId).returned
        removed := evicted (s.putBegin e sourceId).config ((s.putBegin e sourceId).trees tree) ++
          (s.putBegin e sourceId).removed
        filled := tree :: (s.putBegin e sourceId).filled } := by
    rw [step, Sys.putEnd, hputs]
    dsimp only [List.getElem?_cons_zero]
    rw [htree, hholds.config, hholds.counters, hconfig, hcounters, hins]
    rfl
  have hbegin : step s (.putBegin e sourceId) = .ok (s.putBegin e sourceId) := rfl
  refine ⟨_, (run_cons_of_ok hbegin _).trans (run_cons_of_ok hstep []), ?_⟩
  exact ⟨⟨hend.config, hend.counters, hend.index, hend.allocated, hend.unshared⟩, rfl,
    htruncation.trans h.truncation⟩

end put

end LogCache.Quiescence
