import LogCache.GetPages

namespace LogCache.GetSoundness

open AvlNode AvlTree Envelopes EnvelopeStore StoreTransitions Traversal GetCompleteness
  GetPages Runs

section nodes

theorem reached_sublist (near : Side) (skip : Int64 → Bool) (n : Node Int64 Envelope) :
    (reached near skip n).Sublist (visits near n) := by
  induction n using Node.side_induction near with
  | nil => exact .refl _
  | node l k e r b ihnear ihfar =>
      rw [reached_node, visits_node]
      split_ifs
      · exact ihfar.trans ((List.sublist_cons_self _ _).trans (List.sublist_append_right _ _))
      · exact ihnear.append (ihfar.cons_cons _)

theorem not_skipped_of_mem_reached {near : Side} {skip : Int64 → Bool}
    {n : Node Int64 Envelope} {v : Visit} (hv : v ∈ reached near skip n) :
    skip v.envelope.timestamp = false := by
  induction n using Node.side_induction near with
  | nil => cases hv
  | node l k e r b ihnear ihfar =>
      rw [reached_node] at hv
      split_ifs at hv with hskip
      · exact ihfar hv
      · rcases List.mem_append.mp hv with hv | hv
        · exact ihnear hv
        · rcases List.mem_cons.mp hv with rfl | hv
          · exact Bool.eq_false_iff.mpr hskip
          · exact ihfar hv

def entry (v : Visit) : Int64 × Envelope := (v.key, v.envelope)

theorem map_entry_visits (descending : Bool) (tree : Tree Int64 Envelope) :
    (visits (firstSide descending) tree.root).map entry =
      if descending then tree.entries.reverse else tree.entries := by
  cases descending with
  | false => exact map_visits_left _
  | true => exact map_visits_right _

variable (q : Query)

theorem nodes_sublist (tree : Tree Int64 Envelope) :
    ((q.nodes tree).map entry).Sublist
      (if q.descending then tree.entries.reverse else tree.entries) := by
  rw [← map_entry_visits]
  exact (reached_sublist _ _ _).map entry

theorem inRange_of_shown {tree : Tree Int64 Envelope} {v : Visit} (hv : v ∈ q.nodes tree)
    {e : Envelope} (he : q.shown v = some e) : inRange q.start q.stop v.envelope = true := by
  have hskip := not_skipped_of_mem_reached hv
  rw [Query.shown] at he
  split_ifs at he with hpast
  rw [← wanted_of_not_skipped q.descending, hskip]
  rw [Query.past, Bool.not_eq_true] at hpast
  rw [hpast]
  rfl

theorem page_prefix (limit : Int) (res : List Envelope) (vs : List Visit) :
    ∃ ws, ws <+: vs ∧ q.page limit res vs = res ++ ws.filterMap q.shown := by
  induction vs generalizing res with
  | nil => exact ⟨[], List.prefix_rfl, (List.append_nil res).symm⟩
  | cons v vs ih =>
      have hcons : ∀ ws : List Visit, res ++ (v :: ws).filterMap q.shown =
          (res ++ (q.shown v).toList) ++ ws.filterMap q.shown := by
        intro ws
        rw [List.filterMap_cons]
        cases q.shown v <;> simp
      rw [Query.page]
      split_ifs
      · refine ⟨[v], List.prefix_cons_inj v |>.mpr List.nil_prefix, ?_⟩
        rw [hcons, List.filterMap_nil, List.append_nil]
      · obtain ⟨ws, hws, hpage⟩ := ih (res ++ (q.shown v).toList)
        exact ⟨v :: ws, List.prefix_cons_inj v |>.mpr hws, hpage.trans (hcons ws).symm⟩

end nodes

section names

theorem lookup_filter {β : Type} (p : String → Bool) (m : GoMap β) (name : String) :
    (m.filter p).lookup name = if p name then m.lookup name else none := by
  apply Option.ext
  intro b
  have hentry : (m.filter p).lookup name = some b ↔ m.lookup name = some b ∧ p name = true := by
    rw [Finmap.lookup_eq_some_iff, Finmap.lookup_eq_some_iff, GoMap.filter, Multiset.mem_filter]
  rw [hentry]
  cases p name <;> simp

/-- What is left of a message once the metrics are filtered by their names.
Messages without metrics match no filter. -/
def Filtered : Option (String → Bool) → Message → Message → Prop
  | none, stored, shown => shown = stored
  | some matchString, .counter name delta total, shown =>
      matchString name = true ∧ shown = .counter name delta total
  | some matchString, .timer name start stop, shown =>
      matchString name = true ∧ shown = .timer name start stop
  | some matchString, .gauge metrics, shown =>
      ∃ metrics' : GoMap GaugeValue, shown = .gauge metrics' ∧
      (∃ name ∈ metrics, matchString name = true) ∧
      ∀ name, metrics'.lookup name = if matchString name then metrics.lookup name else none
  | some _, _, _ => False

structure Presents (nameFilter : Option (String → Bool)) (stored shown : Envelope) : Prop where
  timestamp : shown.timestamp = stored.timestamp
  ids : shown.sourceId = stored.sourceId ∧ shown.instanceId = stored.instanceId
  tags : shown.tags = stored.tags ∧ shown.deprecatedTags = stored.deprecatedTags
  message : Filtered nameFilter stored.message shown.message

theorem Presents.same {nameFilter : Option (String → Bool)} {e : Envelope}
    (h : Filtered nameFilter e.message e.message) : Presents nameFilter e e :=
  ⟨rfl, ⟨rfl, rfl⟩, ⟨rfl, rfl⟩, h⟩

theorem filterByName_presents {nameFilter : Option (String → Bool)} {stored shown : Envelope}
    (h : filterByName stored nameFilter = some shown) : Presents nameFilter stored shown := by
  cases nameFilter with
  | none =>
      cases h
      exact .same rfl
  | some matchString =>
      obtain ⟨timestamp, sourceId, instanceId, deprecatedTags, tags, message⟩ := stored
      cases message with
      | counter name delta total =>
          simp only [filterByName] at h
          split_ifs at h with hname
          cases h
          exact .same ⟨hname, rfl⟩
      | timer name start stop =>
          simp only [filterByName] at h
          split_ifs at h with hname
          cases h
          exact .same ⟨hname, rfl⟩
      | gauge metrics =>
          simp only [filterByName] at h
          split_ifs at h with hempty
          cases h
          refine ⟨rfl, ⟨rfl, rfl⟩, ⟨rfl, rfl⟩, metrics.filter matchString, rfl, ?_,
            lookup_filter matchString metrics⟩
          by_contra hnone
          push Not at hnone
          apply hempty
          apply Finmap.ext_lookup
          intro name
          rw [lookup_filter, Finmap.lookup_empty]
          split_ifs with hname
          · rw [Finmap.lookup_eq_none]
            exact fun hmem => hnone name hmem hname
          · rfl
      | unset => cases h
      | log payload type => cases h
      | event title body => cases h

theorem filterByName_of_shown {q : Query} {v : Visit} {e : Envelope} (h : q.shown v = some e) :
    filterByName v.envelope q.nameFilter = some e ∧ requested q.types e = true := by
  rw [Query.shown] at h
  split_ifs at h
  exact Option.filter_eq_some_iff.mp h

theorem shown_spec {q : Query} {v : Visit} {e : Envelope} (h : q.shown v = some e) :
    Presents q.nameFilter v.envelope e ∧ requested q.types e = true :=
  (filterByName_of_shown h).imp_left filterByName_presents

end names

theorem forall₂_filterMap {α β : Type} {R : α → β → Prop} {f : α → Option β} {xs : List α}
    (h : ∀ x ∈ xs, ∀ y, f x = some y → R x y) :
    List.Forall₂ R (xs.filter fun x => (f x).isSome) (xs.filterMap f) := by
  induction xs with
  | nil => exact .nil
  | cons x xs ih =>
      have hrest := ih fun x hx => h x (List.mem_cons_of_mem _ hx)
      cases hx : f x with
      | none => simpa [hx] using hrest
      | some y =>
          rw [List.filter_cons_of_pos (by rw [hx]; rfl), List.filterMap_cons_some hx]
          exact .cons (h x List.mem_cons_self y hx) hrest

def KeyOrder (descending : Bool) (p p' : Int64 × Envelope) : Prop :=
  if descending then p'.1 < p.1 else p.1 < p'.1

theorem entries_keyOrder (descending : Bool) (tree : Tree Int64 Envelope) :
    (if descending then tree.entries.reverse else tree.entries).Pairwise (KeyOrder descending) := by
  cases descending with
  | false => exact tree.entries_sorted
  | true => exact List.pairwise_reverse.mpr tree.entries_sorted

/-- `Get` returns entries of the source, each once and in the order of the
keys, that are in the range and pass the filters. It fails only on a number in
the type list that is not the number of a type. -/
theorem get_sound (s : Store) (index : String) (q : Query) (limit : Int) :
    (∃ res picked, get s index q.start q.stop q.types q.nameFilter limit q.descending = .ok res ∧
      picked.Pairwise (KeyOrder q.descending) ∧
      List.Forall₂ (fun p e => p ∈ (storageFor s index).tree.entries ∧
        inRange q.start q.stop p.2 = true ∧
        Presents q.nameFilter p.2 e ∧ requested q.types e = true) picked res) ∨
    get s index q.start q.stop q.types q.nameFilter limit q.descending = .error .unknownType ∧
      Unknown q.types := by
  refine (get_page q s index limit).imp_left fun hget => ?_
  obtain ⟨ws, hws, hpage⟩ := page_prefix q limit [] (q.nodes (storageFor s index).tree)
  have hsub : ((ws.filter fun v => (q.shown v).isSome).map entry).Sublist
      (if q.descending then (storageFor s index).tree.entries.reverse
        else (storageFor s index).tree.entries) :=
    ((List.filter_sublist.trans hws.sublist).map entry).trans (nodes_sublist q _)
  have hentry : ∀ v ∈ ws, entry v ∈ (storageFor s index).tree.entries := by
    intro v hv
    have h := (nodes_sublist q _).subset (List.mem_map_of_mem (hws.subset hv))
    cases hd : q.descending with
    | false => simpa [hd] using h
    | true => simpa [hd] using h
  refine ⟨_, (ws.filter fun v => (q.shown v).isSome).map entry, hget,
    (entries_keyOrder _ _).sublist hsub, ?_⟩
  rw [hpage, List.nil_append, List.forall₂_map_left_iff]
  apply forall₂_filterMap
  intro v hv e he
  exact ⟨hentry v hv, inRange_of_shown q (hws.subset hv) he, shown_spec he⟩

def TimeOrder (descending : Bool) (e e' : Envelope) : Prop :=
  if descending then e'.timestamp ≤ e.timestamp else e.timestamp ≤ e'.timestamp

instance (descending : Bool) : DecidableRel (TimeOrder descending) :=
  fun _ _ => inferInstanceAs (Decidable (ite _ _ _))

theorem page_timeOrder (q : Query) {tree : Tree Int64 Envelope} (ht : TimeOrdered tree)
    (limit : Int) :
    (q.page limit [] (q.nodes tree)).Pairwise (TimeOrder q.descending) := by
  obtain ⟨ws, hws, hpage⟩ := page_prefix q limit [] (q.nodes tree)
  have hvisits : (visits (firstSide q.descending) tree.root).Pairwise fun v w =>
      if q.descending then w.envelope.timestamp ≤ v.envelope.timestamp
      else v.envelope.timestamp ≤ w.envelope.timestamp :=
    visits_of_entries (R := fun t u => if q.descending then u ≤ t else t ≤ u) ht q.descending
      fun _ _ h => h
  rw [hpage, List.nil_append, List.pairwise_filterMap]
  refine (hvisits.sublist (hws.sublist.trans (reached_sublist _ _ _))).imp ?_
  intro v w hvw e he e' he'
  rw [TimeOrder, (shown_spec he).1.timestamp, (shown_spec he').1.timestamp]
  exact hvw

/-- After every run whose Puts keep the order, `Get` returns envelopes in the
order of their timestamps. -/
theorem get_timeOrder (maxPerSource prunesPerGC : Int) (ops : List Op) (s : Store)
    (hops : Along exec KeepsOrder (newStore maxPerSource prunesPerGC) ops)
    (hrun : run exec (newStore maxPerSource prunesPerGC) ops = .ok s) (index : String) (q : Query)
    (limit : Int) :
    (∃ res, get s index q.start q.stop q.types q.nameFilter limit q.descending = .ok res ∧
      res.Pairwise (TimeOrder q.descending)) ∨
    get s index q.start q.stop q.types q.nameFilter limit q.descending = .error .unknownType ∧
      Unknown q.types := by
  have hs : OrderedStore s :=
    run_invariant (fun _ _ _ hs hop h => exec_orderedStore hs hop h)
      (fun _ _ h => by cases h) hops hrun
  refine (get_page q s index limit).imp_left fun hget => ?_
  exact ⟨_, hget, page_timeOrder q (storageFor_timeOrdered hs index) limit⟩

theorem get_timeOrder_burst :
    ∃ s, run exec (newStore 10 1) [.put (bare 0) "a", .put (bare 0) "a",
      .put (bare 2) "a"] = .ok s ∧
      ∃ res, get s "a" 0 9 none none 10 true = .ok res ∧ res.Pairwise (TimeOrder true) := by
  obtain ⟨s, hrun⟩ : ∃ s, run exec (newStore 10 1)
      [.put (bare 0) "a", .put (bare 0) "a", .put (bare 2) "a"] = .ok s :=
        exists_of_isOk (by decide +kernel)
  refine ⟨s, hrun, ?_⟩
  rcases get_timeOrder 10 1 _ s (by decide +kernel) hrun "a"
    ⟨0, 9, none, none, true⟩ 10 with h | ⟨_, _, h⟩
  · exact h
  · cases h

/-- Timestamps 1, 0, 0 get the keys 1, 0, 2, so that the one in the middle is
the newest. -/
theorem get_out_of_timeOrder :
    ∃ s, run exec (newStore 10 1) [.put (bare 1) "a", .put (bare 0) "a",
      .put (bare 0) "a"] = .ok s ∧
      get s "a" 0 9 none none 10 false = .ok [bare 0, bare 1, bare 0] ∧
      get s "a" 0 9 none none 10 true = .ok [bare 0, bare 1, bare 0] ∧
      ¬ [bare 0, bare 1, bare 0].Pairwise (TimeOrder false) ∧
        ¬ [bare 0, bare 1, bare 0].Pairwise (TimeOrder true) :=
  ⟨_, rfl, by decide, by decide, by decide, by decide⟩

end LogCache.GetSoundness
