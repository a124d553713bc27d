import LogCache.EnvelopeStore

namespace LogCache.StoreSteps

open AvlTree Envelopes EnvelopeStore

variable {config : Config} {counters counters' : Counters} {storage storage' : Storage}
    {e : Envelope}

theorem fudgeLoop_bounds (tree : Tree Int64 Envelope) (timestamp : Int64) (remaining fudge : Nat) :
    fudge ≤ fudgeLoop tree timestamp remaining fudge ∧
      fudgeLoop tree timestamp remaining fudge ≤ fudge + remaining := by
  induction remaining generalizing fudge with
  | zero => exact ⟨le_rfl, le_rfl⟩
  | succ remaining ih =>
      rw [fudgeLoop]
      cases tree.get (timestamp + Int64.ofNat fudge) with
      | none => exact ⟨le_rfl, Nat.le_add_right _ _⟩
      | some _ =>
          exact ⟨(Nat.le_succ fudge).trans (ih (fudge + 1)).1, (ih (fudge + 1)).2.trans (by omega)⟩

theorem fudgeLoop_taken (tree : Tree Int64 Envelope) (timestamp : Int64)
    (remaining fudge : Nat) {g : Nat} (hg : fudge ≤ g)
    (hlt : g < fudgeLoop tree timestamp remaining fudge) :
    tree.get (timestamp + Int64.ofNat g) ≠ none := by
  induction remaining generalizing fudge with
  | zero => exact absurd hlt (not_lt.mpr hg)
  | succ remaining ih =>
      rw [fudgeLoop] at hlt
      cases hget : tree.get (timestamp + Int64.ofNat fudge) with
      | none => rw [hget] at hlt; exact absurd hlt (not_lt.mpr hg)
      | some _ =>
          rw [hget] at hlt
          rcases hg.eq_or_lt with rfl | hg
          · rw [hget]
            exact Option.some_ne_none _
          · exact ih (fudge + 1) hg hlt

theorem fudgeLoop_free (tree : Tree Int64 Envelope) (timestamp : Int64) (remaining fudge : Nat)
    (hlt : fudgeLoop tree timestamp remaining fudge < fudge + remaining) :
    tree.get (timestamp + Int64.ofNat (fudgeLoop tree timestamp remaining fudge)) = none := by
  induction remaining generalizing fudge with
  | zero => exact absurd hlt (lt_irrefl _)
  | succ remaining ih =>
      rw [fudgeLoop] at hlt ⊢
      cases hget : tree.get (timestamp + Int64.ofNat fudge) with
      | none => exact hget
      | some _ =>
          rw [hget] at hlt
          exact ih (fudge + 1) (hlt.trans_le (by omega))

def FreeKey (config : Config) (tree : Tree Int64 Envelope) (timestamp : Int64) : Prop :=
  ∃ fudge ≤ config.maxTimestampFudge, tree.get (timestamp + Int64.ofNat fudge) = none

theorem get_fudgedKey (config : Config) (tree : Tree Int64 Envelope) (timestamp : Int64) :
    tree.get (fudgedKey config tree timestamp) = none ↔ FreeKey config tree timestamp := by
  have hb := fudgeLoop_bounds tree timestamp config.maxTimestampFudge 0
  rw [Nat.zero_add] at hb
  constructor
  · exact fun h => ⟨_, hb.2, h⟩
  · rintro ⟨fudge, hle, hfree⟩
    rcases hb.2.lt_or_eq with hlt | heq
    · exact fudgeLoop_free tree timestamp _ 0 (by rwa [Nat.zero_add])
    · rcases hle.lt_or_eq with hlt | rfl
      · exact absurd hfree (fudgeLoop_taken tree timestamp _ 0 (Nat.zero_le _)
          (hlt.trans_eq heq.symm))
      · rwa [fudgedKey, heq]

/-- The tree into which `insertOrSwap` puts: without its oldest entry if the
source is at capacity. -/
def roomFor (config : Config) (tree : Tree Int64 Envelope) : Tree Int64 Envelope :=
  if config.maxPerSource ≤ tree.size then
    match tree.left with
    | none => tree
    | some (oldestTimestamp, _) => tree.remove oldestTimestamp
  else tree

structure Inserted (config : Config) (counters : Counters) (storage : Storage) (e : Envelope)
    (counters' : Counters) (storage' : Storage) : Prop where
  tree : storage'.tree =
    (roomFor config storage.tree).put (fudgedKey config (roomFor config storage.tree) e.timestamp) e
  count : counters'.count + storage.tree.size =
    counters.count + (roomFor config storage.tree).size + 1
  expired : counters'.expired + (roomFor config storage.tree).size =
    counters.expired + storage.tree.size
  sourceExpired : storage'.metaInfo.expired + (roomFor config storage.tree).size =
    storage.metaInfo.expired + storage.tree.size

theorem put_left (tree : Tree Int64 Envelope) (key : Int64) (e : Envelope) :
    (tree.put key e).left ≠ none := by
  rw [Ne, Tree.left_eq_none, Tree.size_eq_length, Tree.entries_put]
  simp [AvlNode.Node.putList]

theorem makeRoom_full {p : Int64 × Envelope} (hfull : config.maxPerSource ≤ storage.tree.size)
    (hleft : storage.tree.left = some p) :
    storage.makeRoom config counters = .ok ({ counters with expired := counters.expired + 1 },
      { metaInfo := { storage.metaInfo with expired := storage.metaInfo.expired + 1 }
        tree := storage.tree.remove p.1 }) := by
  rw [Storage.makeRoom, if_pos hfull, hleft]

theorem makeRoom_room (hroom : ¬ config.maxPerSource ≤ storage.tree.size) :
    storage.makeRoom config counters = .ok ({ counters with count := counters.count + 1 },
      storage) := by
  rw [Storage.makeRoom, if_neg hroom]

theorem insert_ok (config : Config) (counters : Counters) (storage : Storage) (e : Envelope) :
    ∃ counters' storage', storage.insert config counters e = .ok (counters', storage') ∧
      storage'.tree = storage.tree.put (fudgedKey config storage.tree e.timestamp) e ∧
      counters'.count = counters.count ∧ counters'.expired = counters.expired ∧
      storage'.metaInfo.expired = storage.metaInfo.expired := by
  cases hleft : (storage.tree.put (fudgedKey config storage.tree e.timestamp) e).left with
  | none => exact absurd hleft (put_left _ _ _)
  | some p =>
      simp only [Storage.insert, hleft]
      exact ⟨_, _, rfl, rfl, rfl, rfl, rfl⟩

theorem insertOrSwap_ok (config : Config) (counters : Counters) (storage : Storage) (e : Envelope)
    (h : storage.tree.size < config.maxPerSource ∨ 0 < storage.tree.size) :
    ∃ counters' storage', storage.insertOrSwap config counters e = .ok (counters', storage') ∧
      Inserted config counters storage e counters' storage' := by
  by_cases hfull : config.maxPerSource ≤ storage.tree.size
  · have hpos : 0 < storage.tree.size := h.resolve_left (not_lt.mpr hfull)
    obtain ⟨p, hleft⟩ := Option.isSome_iff_exists.mp ((Tree.left_isSome_iff _).mpr hpos)
    have hr : roomFor config storage.tree = storage.tree.remove p.1 := by
      rw [roomFor, if_pos hfull, hleft]
    obtain ⟨counters', storage', hins, ht, hc, hx, hm⟩ := insert_ok config
      { counters with expired := counters.expired + 1 }
      { metaInfo := { storage.metaInfo with expired := storage.metaInfo.expired + 1 }
        tree := storage.tree.remove p.1 } e
    have hsize := Tree.size_remove_left hleft
    dsimp only at hc hx hm
    refine ⟨counters', storage', ?_, ?_, ?_, ?_, ?_⟩
    · rw [Storage.insertOrSwap, makeRoom_full hfull hleft]
      exact hins
    · rw [hr]
      exact ht
    all_goals rw [hr]; omega
  · have hr : roomFor config storage.tree = storage.tree := by rw [roomFor, if_neg hfull]
    obtain ⟨counters', storage', hins, ht, hc, hx, hm⟩ := insert_ok config
      { counters with count := counters.count + 1 } storage e
    dsimp only at hc hx hm
    refine ⟨counters', storage', ?_, ?_, ?_, ?_, ?_⟩
    · rw [Storage.insertOrSwap, makeRoom_room hfull]
      exact hins
    · rw [hr]
      exact ht
    all_goals rw [hr]; omega

theorem insertOrSwap_full_empty (hfull : config.maxPerSource ≤ storage.tree.size)
    (hsize : storage.tree.size = 0) :
    storage.insertOrSwap config counters e = .error .nilDereference := by
  rw [Storage.insertOrSwap, Storage.makeRoom, if_pos hfull, Tree.left_eq_none.mpr hsize]
  rfl

theorem insertOrSwap_inserted
    (h : storage.insertOrSwap config counters e = .ok (counters', storage')) :
    Inserted config counters storage e counters' storage' := by
  by_cases hok : storage.tree.size < config.maxPerSource ∨ 0 < storage.tree.size
  · obtain ⟨c, st, hc, hi⟩ := insertOrSwap_ok config counters storage e hok
    rw [h] at hc
    cases hc
    exact hi
  · rw [not_or, not_lt, Nat.not_lt, Nat.le_zero] at hok
    rw [insertOrSwap_full_empty hok.1 hok.2] at h
    cases h

theorem Inserted.size (hi : Inserted config counters storage e counters' storage')
    (hfree : FreeKey config (roomFor config storage.tree) e.timestamp) :
    storage'.tree.size = (roomFor config storage.tree).size + 1 := by
  rw [hi.tree]
  exact Tree.size_put_of_get_none ((get_fudgedKey _ _ _).mpr hfree) e

theorem Inserted.size_of_not_free (hi : Inserted config counters storage e counters' storage')
    (hfree : ¬ FreeKey config (roomFor config storage.tree) e.timestamp) :
    storage'.tree.size = (roomFor config storage.tree).size := by
  rw [← get_fudgedKey, ← Ne, Option.ne_none_iff_exists'] at hfree
  obtain ⟨v, hv⟩ := hfree
  rw [hi.tree]
  exact Tree.size_put_of_get_some hv e

theorem Inserted.size_pos (hi : Inserted config counters storage e counters' storage') :
    0 < storage'.tree.size := by
  rw [← Tree.left_isSome_iff, hi.tree, Option.isSome_iff_ne_none]
  exact put_left _ _ _

theorem fudgedKey_of_free {tree : Tree Int64 Envelope} {timestamp : Int64}
    (h : tree.get timestamp = none) :
    fudgedKey config tree timestamp = timestamp := by
  have hzero : timestamp + Int64.ofNat 0 = timestamp := Int64.add_zero timestamp
  rw [fudgedKey]
  cases config.maxTimestampFudge with
  | zero => exact hzero
  | succ n =>
      rw [fudgeLoop, hzero, h]
      exact hzero

theorem Inserted.of_free (hi : Inserted config counters storage e counters' storage')
    (hfree : (roomFor config storage.tree).get e.timestamp = none) :
    storage'.tree.entries.Perm ((e.timestamp, e) :: (roomFor config storage.tree).entries) := by
  rw [hi.tree, fudgedKey_of_free hfree]
  exact Tree.entries_put_perm hfree e

theorem roomFor_entries (config : Config) (tree : Tree Int64 Envelope) :
    tree.entries = (if config.maxPerSource ≤ tree.size then tree.left.toList else []) ++
      (roomFor config tree).entries := by
  rw [roomFor]
  split_ifs
  · cases hleft : tree.left with
    | none => rfl
    | some p => exact Tree.entries_remove_left hleft
  · rfl

theorem Inserted.stores (hi : Inserted config counters storage e counters' storage') :
    (fudgedKey config (roomFor config storage.tree) e.timestamp, e) ∈ storage'.tree.entries := by
  rw [hi.tree, ← Tree.get_eq_some, Tree.get_put, if_pos rfl]

theorem Inserted.mem_cases (hi : Inserted config counters storage e counters' storage')
    {p : Int64 × Envelope} (hp : p ∈ storage'.tree.entries) :
    p = (fudgedKey config (roomFor config storage.tree) e.timestamp, e) ∨
      p ∈ storage.tree.entries := by
  rw [hi.tree, Tree.entries_put, (putList_perm _ _ _).mem_iff, List.mem_cons] at hp
  rcases hp with hp | hp
  · exact Or.inl hp
  · rw [roomFor_entries config storage.tree]
    exact Or.inr (List.mem_append_right _ (List.mem_of_mem_filter hp))

theorem removeOldest_empty (hsize : storage.tree.size = 0) :
    storage.removeOldest counters = .ok .nothing := by
  rw [Storage.removeOldest, if_pos hsize]

def removed (counters : Counters) : Counters :=
  { counters with count := counters.count - 1, expired := counters.expired + 1 }

theorem removeOldest_last {p : Int64 × Envelope} (hleft : storage.tree.left = some p)
    (hsize : storage.tree.size = 1) :
    storage.removeOldest counters =
      .ok (.emptied (removed counters) { storage with tree := storage.tree.remove p.1 }) := by
  have hs : (storage.tree.remove p.1).size = 0 := by
    have := Tree.size_remove_left hleft
    omega
  simp only [Storage.removeOldest, hsize, one_ne_zero, if_false, hleft, hs, if_true]
  rfl

theorem removeOldest_more {p q : Int64 × Envelope} (hleft : storage.tree.left = some p)
    (hnext : (storage.tree.remove p.1).left = some q) :
    storage.removeOldest counters = .ok (.remains (removed counters)
      { metaInfo := { storage.metaInfo with
          expired := storage.metaInfo.expired + 1, oldestTimestamp := q.1 }
        tree := storage.tree.remove p.1 } q.1) := by
  have hs : (storage.tree.remove p.1).size ≠ 0 := by
    rw [Ne, ← Tree.left_eq_none, hnext]
    exact Option.some_ne_none q
  have hs' : storage.tree.size ≠ 0 := by
    rw [Ne, ← Tree.left_eq_none, hleft]
    exact Option.some_ne_none p
  simp only [Storage.removeOldest, hs', if_false, hleft, hs, hnext]
  rfl

theorem removeOldest_cases (counters : Counters) (hsize : 0 < storage.tree.size) :
    ∃ p, storage.tree.left = some p ∧
      ((storage.tree.size = 1 ∧ storage.removeOldest counters =
          .ok (.emptied (removed counters) { storage with tree := storage.tree.remove p.1 })) ∨
        ∃ q, (storage.tree.remove p.1).left = some q ∧ storage.removeOldest counters =
          .ok (.remains (removed counters)
            { metaInfo := { storage.metaInfo with
                expired := storage.metaInfo.expired + 1, oldestTimestamp := q.1 }
              tree := storage.tree.remove p.1 } q.1)) := by
  obtain ⟨p, hleft⟩ := Option.isSome_iff_exists.mp ((Tree.left_isSome_iff _).mpr hsize)
  refine ⟨p, hleft, ?_⟩
  cases hnext : (storage.tree.remove p.1).left with
  | none =>
      have h := Tree.size_remove_left hleft
      rw [Tree.left_eq_none] at hnext
      have hone : storage.tree.size = 1 := by omega
      exact Or.inl ⟨hone, removeOldest_last hleft hone⟩
  | some q => exact Or.inr ⟨q, rfl, removeOldest_more hleft hnext⟩

theorem afterPruning_count (config : Config) (counters : Counters) (oldest : Option Int64) :
    (counters.afterPruning config oldest).count = counters.count ∧
      (counters.afterPruning config oldest).expired = counters.expired := by
  unfold Counters.afterPruning
  cases oldest with
  | none => exact ⟨rfl, rfl⟩
  | some timestamp =>
      dsimp only
      split_ifs <;> exact ⟨rfl, rfl⟩

end LogCache.StoreSteps
