import LogCache.GetCompleteness

namespace LogCache.UnfudgedStore

open AvlTree Envelopes EnvelopeStore StoreSteps StoreTransitions GetCompleteness Runs

variable {s s' : Store} {sourceId : String}

def arrivals (sourceId : String) (ops : List Op) : List Envelope :=
  ops.filterMap fun
    | .put e src => if src = sourceId then some e else none
    | .truncate _ _ => none

theorem arrivals_concat (sourceId : String) (ops : List Op) (op : Op) :
    arrivals sourceId (ops ++ [op]) = arrivals sourceId ops ++ arrivals sourceId [op] :=
  List.filterMap_append

theorem arrivals_put (sourceId : String) (ops : List Op) (e : Envelope) (src : String) :
    arrivals sourceId (ops ++ [.put e src]) = arrivals sourceId ops ++ if src = sourceId then [e]
      else [] := by
  rw [arrivals_concat]
  split_ifs with hs <;> simp [arrivals, hs]

def Unfudged (tree : Tree Int64 Envelope) : Prop := ∀ p ∈ tree.entries, p.1 = p.2.timestamp

theorem Unfudged.get_eq_none {tree : Tree Int64 Envelope} (h : Unfudged tree) {timestamp : Int64}
    (hnew : timestamp ∉ tree.entries.map fun p => p.2.timestamp) : tree.get timestamp = none := by
  rw [Tree.get_eq_none]
  intro e he
  apply hnew
  rw [List.mem_map]
  exact ⟨_, he, (h _ he).symm⟩

theorem Unfudged.timeOrdered {tree : Tree Int64 Envelope} (h : Unfudged tree) :
    tree.entries.Pairwise fun p q => p.2.timestamp < q.2.timestamp := by
  refine tree.entries_sorted.imp_of_mem ?_
  intro p q hp hq hlt
  rwa [h p hp, h q hq] at hlt

def Fresh (sourceId : String) (s : Store) : Op → Prop
  | .put e src =>
      src = sourceId → (roomFor s.config (storageFor s sourceId).tree).get e.timestamp = none
  | .truncate _ _ => True

theorem put_fresh {e : Envelope} (hfresh : Fresh sourceId s (.put e sourceId))
    (h : s.put e sourceId = .ok s') :
    (storageFor s' sourceId).tree.entries.Perm
      ((e.timestamp, e) :: (roomFor s.config (storageFor s sourceId).tree).entries) := by
  obtain ⟨counters', storage', hi, rfl⟩ := put_inserted h
  rw [storageFor_insert, if_pos rfl]
  exact hi.of_free (hfresh rfl)

theorem put_other {e : Envelope} {src : String} (hne : src ≠ sourceId) (h : s.put e src = .ok s') :
    storageFor s' sourceId = storageFor s sourceId := by
  obtain ⟨counters', storage', hi, rfl⟩ := put_inserted h
  rw [storageFor_insert, if_neg hne.symm]

theorem Unfudged.roomFor {tree : Tree Int64 Envelope} (h : Unfudged tree) (config : Config) :
    Unfudged (StoreSteps.roomFor config tree) :=
  fun p hp => h p ((roomFor_sublist config tree).subset hp)

theorem exec_unfudged {op : Op} (hs : Unfudged (storageFor s sourceId).tree)
    (hop : Fresh sourceId s op) (h : exec s op = .ok s') :
    Unfudged (storageFor s' sourceId).tree := by
  cases op with
  | put e src =>
      by_cases hsrc : src = sourceId
      · subst hsrc
        intro p hp
        rcases List.mem_cons.mp ((put_fresh hop h).mem_iff.mp hp) with rfl | hp
        · rfl
        · exact hs.roomFor s.config p hp
      · rw [put_other hsrc h]
        exact hs
  | truncate quantity order => exact fun p hp => hs p ((truncate_suffix h sourceId).subset hp)

theorem exec_stored {op : Op} (h : exec s op = .ok s') {e : Envelope}
    (he : e ∈ stored s' sourceId) :
    e ∈ stored s sourceId ∨ e ∈ arrivals sourceId [op] := by
  obtain ⟨p, hp, rfl⟩ := List.mem_map.mp he
  cases op with
  | put e src =>
      by_cases hsrc : src = sourceId
      · subst hsrc
        obtain ⟨counters', storage', hi, rfl⟩ := put_inserted h
        rw [storageFor_insert, if_pos rfl] at hp
        rcases hi.mem_cases hp with rfl | hp
        · exact Or.inr (by simp [arrivals])
        · exact Or.inl (List.mem_map_of_mem hp)
      · rw [put_other hsrc h] at hp
        exact Or.inl (List.mem_map_of_mem hp)
  | truncate quantity order =>
      exact Or.inl (List.mem_map_of_mem ((truncate_suffix h sourceId).subset hp))

structure Faithful (sourceId : String) (ops : List Op) (s : Store) : Prop where
  stored : ∀ e ∈ stored s sourceId, e ∈ arrivals sourceId ops
  unfudged : Unfudged (storageFor s sourceId).tree

theorem Faithful.fresh {ops : List Op} (hs : Faithful sourceId ops s) {op : Op}
    (hdistinct : ((arrivals sourceId (ops ++ [op])).map Envelope.timestamp).Nodup) :
    Fresh sourceId s op := by
  cases op with
  | truncate quantity order => trivial
  | put e src =>
      intro hsrc
      rw [arrivals_put, if_pos hsrc, List.map_append, List.nodup_append'] at hdistinct
      apply (hs.unfudged.roomFor s.config).get_eq_none
      intro hmem
      obtain ⟨p, hp, hpe⟩ := List.mem_map.mp hmem
      have hstored : p.2 ∈ GetCompleteness.stored s sourceId :=
        List.mem_map_of_mem ((roomFor_sublist _ _).subset hp)
      exact hdistinct.2.2 (List.mem_map_of_mem (hs.stored p.2 hstored)) (by simp [hpe])

theorem faithful_of_distinct {maxPerSource prunesPerGC : Int} {ops : List Op}
    (hdistinct : ((arrivals sourceId ops).map Envelope.timestamp).Nodup)
    (hrun : run exec (newStore maxPerSource prunesPerGC) ops = .ok s) :
    Faithful sourceId ops s := by
  induction ops using List.reverseRecOn generalizing s with
  | nil =>
      cases hrun
      exact ⟨fun e he => (by cases he), fun p hp => (by cases hp)⟩
  | append_singleton ops op ih =>
      rw [run_append] at hrun
      obtain ⟨t, ht, hlast⟩ := bind_ok hrun
      obtain ⟨s₁, hop, hnil⟩ := run_cons_ok hlast
      cases hnil
      have hbefore : Faithful sourceId ops t := by
        apply ih _ ht
        rw [arrivals_concat, List.map_append] at hdistinct
        exact hdistinct.of_append_left
      refine ⟨?_, exec_unfudged hbefore.unfudged (hbefore.fresh hdistinct) hop⟩
      intro e he
      rw [arrivals_concat, List.mem_append]
      exact (exec_stored hop he).imp_left (hbefore.stored e)

end LogCache.UnfudgedStore
