import LogCache.MatcherSemantics
import LogCache.Runs
import LogCache.Selections
import LogCache.SeriesSets

namespace LogCache.SelectOrders

open Envelopes MapOrders Promql SourceIds Querier MatcherSemantics SeriesSets

section outcome

def shown (set : List ConcreteSeries) : Set (Set Label × List Point) :=
  {x | ∃ series ∈ set, x = ({l | l ∈ series.labels}, series.points)}

def SameOutcome : Except String (List ConcreteSeries) → Except String (List ConcreteSeries) → Prop
  | .ok set, .ok set' => shown set = shown set'
  | .error _, .error _ => True
  | _, _ => False

def labelSet (tags : GoMap String) : Set Label := {l | tags.lookup l.name = some l.value}

theorem labelSet_inj {tags tags' : GoMap String} (h : labelSet tags = labelSet tags') :
    tags = tags' := by
  apply Finmap.ext_lookup
  intro name
  ext value
  exact Set.ext_iff.mp h ⟨name, value⟩

theorem mem_convertToLabels (order : MapOrder String) (tags : GoMap String) :
    {l | l ∈ convertToLabels order tags} = labelSet tags := by
  ext l
  rw [Set.mem_ofPred_eq, convertToLabels, List.mem_map]
  constructor
  · rintro ⟨p, hp, rfl⟩
    exact (mem_visit order).mp hp
  · intro hl
    exact ⟨⟨l.name, l.value⟩, (mem_visit order).mpr hl, rfl⟩

theorem mem_shown {order : SyncMap.RangeOrder String SeriesData} {labelOrder : MapOrder String}
    {b : SeriesSetBuilder} {x : Set Label × List Point} :
    x ∈ shown (buildSeriesSet order labelOrder b) ↔
      ∃ seriesID d, b.lookup seriesID = some d ∧ x = (labelSet d.tags, d.points) := by
  rw [shown, Set.mem_ofPred_eq, buildSeriesSet]
  simp only [List.mem_map, (order.perm b.entries).mem_iff]
  constructor
  · rintro ⟨_, ⟨⟨seriesID, d⟩, hp, rfl⟩, rfl⟩
    exact ⟨seriesID, d, SyncMap.mem_entries.mp hp, by rw [mem_convertToLabels]⟩
  · rintro ⟨seriesID, d, hd, rfl⟩
    exact ⟨_, ⟨⟨seriesID, d⟩, SyncMap.mem_entries.mpr hd, rfl⟩, by rw [mem_convertToLabels]⟩

variable {order order' : SyncMap.RangeOrder String SeriesData}
    {labelOrder labelOrder' : MapOrder String}
  {adds adds' : List Addition}

theorem lookup_of_shown (h : shown (buildSeriesSet order labelOrder (addAll ∅ adds)) ⊆
      shown (buildSeriesSet order' labelOrder' (addAll ∅ adds'))) {seriesID : String}
        {d : SeriesData}
    (hd : (addAll ∅ adds).lookup seriesID = some d) :
    (addAll ∅ adds').lookup seriesID = some d := by
  obtain ⟨seriesID', d', hd', heq⟩ := mem_shown.mp (h (mem_shown.mpr ⟨seriesID, d, hd, rfl⟩))
  obtain ⟨htags, hpoints⟩ := Prod.mk.inj heq
  have htags := labelSet_inj htags
  have hid : seriesID = seriesID' := by
    rw [← getSeriesID_of_lookup hd, ← getSeriesID_of_lookup hd', htags]
  cases d
  cases d'
  subst hid htags hpoints
  exact hd'

theorem shown_eq_iff : shown (buildSeriesSet order labelOrder (addAll ∅ adds)) =
      shown (buildSeriesSet order' labelOrder' (addAll ∅ adds')) ↔
    ∀ seriesID, extend none (withID seriesID adds) = extend none (withID seriesID adds') := by
  have hlookup : ∀ adds seriesID, (addAll ∅ adds).lookup seriesID =
      extend none (withID seriesID adds) := by
    intro adds seriesID
    rw [lookup_addAll, AList.lookup_empty]
  constructor
  · intro h seriesID
    rw [← hlookup, ← hlookup]
    ext d
    exact ⟨lookup_of_shown h.subset, lookup_of_shown h.superset⟩
  · intro h
    ext x
    simp only [mem_shown, hlookup, h]

end outcome

section selecting

variable {q : LogCacheQuerier} {orders : Orders} {selection : Selection}

theorem foldl_visitEnvelope (batch : List Envelope) (b : SeriesSetBuilder) :
    batch.foldl (visitEnvelope q orders selection) b =
      addAll b (batch.filterMap (contribution q orders selection)) := by
  induction batch generalizing b with
  | nil => rfl
  | cons e batch ih =>
      rw [List.foldl_cons, ih, visitEnvelope]
      cases hsome : contribution q orders selection e with
      | none => rw [List.filterMap_cons_none hsome]
      | some x =>
          rw [List.filterMap_cons_some hsome]
          rfl

def answer (q : LogCacheQuerier) (sourceID : String) : List Envelope :=
  ((q.dataReader (request q sourceID)).toOption).getD []

def Fails (q : LogCacheQuerier) (sourceID : String) : Prop :=
  ∃ err, q.dataReader (request q sourceID) = .error err

theorem read_of_not_fails {sourceID : String} (h : ¬ Fails q sourceID) :
    q.dataReader (request q sourceID) = .ok (answer q sourceID) := by
  cases hread : q.dataReader (request q sourceID) with
  | error err => exact absurd ⟨err, hread⟩ h
  | ok batch =>
      rw [answer, hread]
      rfl

def additions (q : LogCacheQuerier) (orders : Orders) (selection : Selection) (sourceID : String) :
    List Addition :=
  (answer q sourceID).filterMap (contribution q orders selection)

theorem foldlM_visitSourceID {sourceIDs : List String}
    (h : ∀ sourceID ∈ sourceIDs, ¬ Fails q sourceID) (b : SeriesSetBuilder) :
    sourceIDs.foldlM (visitSourceID q orders selection) b =
      .ok (addAll b (sourceIDs.flatMap (additions q orders selection))) := by
  induction sourceIDs generalizing b with
  | nil => rfl
  | cons sourceID sourceIDs ih =>
      obtain ⟨hhead, htail⟩ := List.forall_mem_cons.mp h
      rw [List.foldlM_cons, visitSourceID, read_of_not_fails hhead, List.flatMap_cons, addAll,
        List.foldl_append]
      change sourceIDs.foldlM _ _ = _
      rw [foldl_visitEnvelope]
      exact ih htail _

theorem foldlM_visitSourceID_error {sourceIDs : List String} {sourceID : String}
    (hs : sourceID ∈ sourceIDs) (h : Fails q sourceID) (b : SeriesSetBuilder) :
    ∃ err, sourceIDs.foldlM (visitSourceID q orders selection) b = .error err := by
  obtain ⟨err, herr⟩ := h
  refine Runs.foldlM_error hs (fun b => ⟨err, ?_⟩) b
  rw [visitSourceID, herr]
  rfl

def visited (orders : Orders) (ll : List Matcher) : List String :=
  (orders.sourceIDs.visit (selectMatchers ll).sourceIDs.entries).map (·.1)

theorem visited_perm (orders : Orders) (ll : List Matcher) :
    (visited orders ll).Perm (selectMatchers ll).sourceIDs.keys :=
  (orders.sourceIDs.perm _).map _

theorem mem_visited {ll : List Matcher} {sourceID : String} :
    sourceID ∈ visited orders ll ↔ sourceID ∈ (selectMatchers ll).sourceIDs :=
  (visited_perm orders ll).mem_iff

theorem select_eq (ll : List Matcher) (hne : (selectMatchers ll).sourceIDs.entries ≠ [])
    (h : ∀ sourceID ∈ (selectMatchers ll).sourceIDs, ¬ Fails q sourceID) (orders : Orders) :
    select q orders ll = .ok (buildSeriesSet orders.data orders.tags
      (addAll ∅ ((visited orders ll).flatMap (additions q orders (selectMatchers ll))))) := by
  have hvisited : visited orders ll ≠ [] := by
    intro hnil
    have hperm := visited_perm orders ll
    rw [hnil] at hperm
    exact hne (List.map_eq_nil_iff.mp hperm.nil_eq.symm)
  rw [select]
  change (if visited orders ll = [] then _ else _) = _
  rw [if_neg hvisited]
  change (visited orders ll).foldlM (visitSourceID q orders (selectMatchers ll)) ∅ >>= _ = _
  rw [foldlM_visitSourceID fun sourceID hs => h sourceID (mem_visited.mp hs)]
  rfl

theorem select_error (ll : List Matcher) (h : (selectMatchers ll).sourceIDs.entries = [] ∨
      ∃ sourceID ∈ (selectMatchers ll).sourceIDs, Fails q sourceID) (orders : Orders) :
    ∃ err, select q orders ll = .error err := by
  rw [select]
  change ∃ err, (if visited orders ll = [] then _ else _) = _
  split_ifs with hvisited
  · exact ⟨_, rfl⟩
  · rcases h with hnil | ⟨sourceID, hs, hfails⟩
    · have hperm := visited_perm orders ll
      rw [AList.keys, hnil] at hperm
      exact absurd hperm.eq_nil hvisited
    · obtain ⟨err, herr⟩ :=
        @foldlM_visitSourceID_error q orders (selectMatchers ll) (visited orders ll) sourceID
        (mem_visited.mpr hs) hfails ∅
      refine ⟨err, ?_⟩
      change (visited orders ll).foldlM (visitSourceID q orders (selectMatchers ll)) ∅ >>= _ = _
      rw [herr]
      rfl

end selecting

section values

variable {q : LogCacheQuerier} {selection : Selection}

/-- The metrics of a gauge whose names become the same one agree on the value. -/
def OneValue (metric : String) : Message → Prop
  | .gauge metrics =>
      ∀ name name' v v', metrics.lookup name = some v → metrics.lookup name' = some v' →
      sanitizeMetricName name = metric → sanitizeMetricName name' = metric → v.value = v'.value
  | _ => True

theorem isSome_messageValue (order order' : MapOrder GaugeValue) (metric : String)
    (message : Message) :
    (messageValue order metric message).isSome = (messageValue order' metric message).isSome :=
  Bool.eq_iff_iff.mpr ((messageValue_isSome order metric message).trans
    (messageValue_isSome order' metric message).symm)

theorem exists_metric {order : MapOrder GaugeValue} {metric : String} {metrics : GoMap GaugeValue}
    {f : Float64} (h : messageValue order metric (.gauge metrics) = some f) :
    ∃ name v, metrics.lookup name = some v ∧ sanitizeMetricName name = metric ∧ v.value = f := by
  rw [messageValue, checkMapForSanitizedMetricName, Option.map_map, Option.map_eq_some_iff] at h
  obtain ⟨p, hp, rfl⟩ := h
  have hname := List.find?_some hp
  exact ⟨p.1, p.2, (mem_visit order).mp (List.mem_of_find?_eq_some hp),
    of_decide_eq_true hname, rfl⟩

theorem messageValue_eq {metric : String} {message : Message} (h : OneValue metric message)
    (order order' : MapOrder GaugeValue) :
    messageValue order metric message = messageValue order' metric message := by
  have hsome := isSome_messageValue order order' metric message
  cases message with
  | gauge metrics =>
      cases hf : messageValue order metric (.gauge metrics) with
      | none =>
          rw [hf] at hsome
          exact (Option.isSome_eq_false_iff.mp hsome.symm |> Option.isNone_iff_eq_none.mp).symm
      | some f =>
          rw [hf] at hsome
          obtain ⟨f', hf'⟩ := Option.isSome_iff_exists.mp hsome.symm
          obtain ⟨name, v, hv, hname, rfl⟩ := exists_metric hf
          obtain ⟨name', v', hv', hname', rfl⟩ := exists_metric hf'
          rw [hf', h name name' v v' hv hv' hname hname']
  | _ => rfl

theorem contribution_eq {e : Envelope}
    (h : hasLabels e.tags selection.ls = true → OneValue selection.metric e.message)
    (orders orders' : Orders) :
    contribution q orders selection e = contribution q orders' selection e := by
  rw [contribution, contribution]
  split_ifs with hlabels
  · rw [messageValue_eq (h hlabels) (orders.metrics e) (orders'.metrics e)]
  · rfl

theorem exists_messageValue {metrics : GoMap GaugeValue} {name metric : String} {v : GaugeValue}
    (hv : metrics.lookup name = some v) (hname : sanitizeMetricName name = metric) :
    ∃ order, messageValue order metric (.gauge metrics) = some v.value := by
  obtain ⟨order, rest, horder⟩ := exists_visit_cons hv
  refine ⟨order, ?_⟩
  have hfirst : decide (sanitizeMetricName (⟨name, v⟩ : Σ _ : String, GaugeValue).1 = metric) =
      true := decide_eq_true hname
  rw [messageValue, checkMapForSanitizedMetricName, horder, List.find?_cons, hfirst]
  rfl

def pointFor (q : LogCacheQuerier) (orders : Orders) (selection : Selection) (seriesID : String)
    (e : Envelope) :
    Option Point :=
  (contribution q orders selection e).bind fun x => if getSeriesID x.1 = seriesID
    then some x.2 else none

theorem points_withID (orders : Orders) (seriesID : String) (batch : List Envelope) :
    (withID seriesID (batch.filterMap (contribution q orders selection))).map Prod.snd =
      batch.filterMap (pointFor q orders selection seriesID) := by
  rw [withID, ← List.filterMap_eq_filter, List.filterMap_filterMap, ← List.filterMap_eq_map,
    List.filterMap_filterMap]
  congr 1
  funext e
  rw [pointFor]
  cases contribution q orders selection e with
  | none => rfl
  | some x =>
      by_cases hid : getSeriesID x.1 = seriesID <;> simp [Option.guard, hid]

theorem isSome_pointFor (orders orders' : Orders) (seriesID : String) (e : Envelope) :
    (pointFor q orders selection seriesID e).isSome =
      (pointFor q orders' selection seriesID e).isSome := by
  have hsome := isSome_messageValue (orders.metrics e)
      (orders'.metrics e) selection.metric e.message
  rw [pointFor, pointFor, contribution, contribution]
  split_ifs
  · cases hv : messageValue (orders.metrics e) selection.metric e.message <;>
      cases hv' : messageValue (orders'.metrics e) selection.metric e.message <;>
      simp only [hv, hv', Option.isSome_none, Option.isSome_some, reduceCtorEq] at hsome
    · rfl
    · simp only [Option.map_some, Option.bind_some]
      split_ifs <;> rfl
  · rfl

end values

section orders

variable {q : LogCacheQuerier} {ll : List Matcher}

def OrderFree (q : LogCacheQuerier) (ll : List Matcher) : Prop :=
  ∀ orders orders', SameOutcome (select q orders ll) (select q orders' ll)

def Unambiguous (q : LogCacheQuerier) (ll : List Matcher) : Prop :=
  ∀ sourceID ∈ (selectMatchers ll).sourceIDs, ∀ e ∈ answer q sourceID,
    hasLabels e.tags (selectMatchers ll).ls = true → OneValue (selectMatchers ll).metric e.message

/-- Two sources that add to one series make the same series in either order. -/
def Interchangeable (xs ys : List Addition) : Prop :=
  ∀ seriesID, extend none (withID seriesID (xs ++ ys)) = extend none (withID seriesID (ys ++ xs))

def Separate (q : LogCacheQuerier) (ll : List Matcher) : Prop :=
  ∀ orders, ∀ s ∈ (selectMatchers ll).sourceIDs, ∀ t ∈ (selectMatchers ll).sourceIDs, s ≠ t →
    Interchangeable (additions q orders (selectMatchers ll) s)
      (additions q orders (selectMatchers ll) t)

theorem extend_flatMap (seriesID : String) (adds : String → List Addition) (sourceIDs : List String)
    (d : Option SeriesData) :
    extend d (withID seriesID (sourceIDs.flatMap adds)) =
      sourceIDs.foldl (fun d s => extend d (withID seriesID (adds s))) d := by
  induction sourceIDs generalizing d with
  | nil => exact extend_nil d
  | cons s sourceIDs ih => rw [List.flatMap_cons, withID_append, extend_append, ih, List.foldl_cons]

theorem extend_of_perm {adds : String → List Addition} {sourceIDs sourceIDs' : List String}
    (hperm : sourceIDs.Perm sourceIDs')
    (h : ∀ s ∈ sourceIDs, ∀ t ∈ sourceIDs, s ≠ t → Interchangeable (adds s) (adds t))
    (seriesID : String) :
    extend none (withID seriesID (sourceIDs.flatMap adds)) =
      extend none (withID seriesID (sourceIDs'.flatMap adds)) := by
  rw [extend_flatMap, extend_flatMap]
  refine hperm.foldl_eq' (fun s hs t ht d => ?_) none
  by_cases hst : s = t
  · rw [hst]
  · have hswap := h s hs t ht hst seriesID
    rw [withID_append, withID_append] at hswap
    exact extend_comm hswap d

theorem orderFree_of_separate (hambiguous : Unambiguous q ll) (hseparate : Separate q ll)
    (hread : ∀ sourceID ∈ (selectMatchers ll).sourceIDs, ¬ Fails q sourceID) : OrderFree q ll := by
  intro orders orders'
  by_cases hne : (selectMatchers ll).sourceIDs.entries = []
  · obtain ⟨err, herr⟩ := @select_error q ll (.inl hne) orders
    obtain ⟨err', herr'⟩ := @select_error q ll (.inl hne) orders'
    rw [herr, herr']
    trivial
  · rw [select_eq ll hne hread orders, select_eq ll hne hread orders', SameOutcome, shown_eq_iff]
    intro seriesID
    have hsame : ∀ s ∈ visited orders' ll,
        additions q orders' (selectMatchers ll) s = additions q orders (selectMatchers ll) s := by
      intro s hs
      exact List.filterMap_congr fun e he => contribution_eq
        (hambiguous s (mem_visited.mp hs) e he) orders' orders
    rw [List.flatMap_congr hsame]
    refine extend_of_perm ((visited_perm orders ll).trans
      (visited_perm orders' ll).symm) ?_ seriesID
    exact fun s hs t ht => hseparate orders s (mem_visited.mp hs) t (mem_visited.mp ht)

theorem extend_of_orderFree (h : OrderFree q ll) (hne : (selectMatchers ll).sourceIDs.entries ≠ [])
    (hread : ∀ sourceID ∈ (selectMatchers ll).sourceIDs, ¬ Fails q sourceID)
    (orders orders' : Orders) (seriesID : String) :
    extend none (withID seriesID ((visited orders ll).flatMap
      (additions q orders (selectMatchers ll)))) =
      extend none (withID seriesID ((visited orders' ll).flatMap
        (additions q orders' (selectMatchers ll)))) := by
  have hsame := h orders orders'
  rw [select_eq ll hne hread orders, select_eq ll hne hread orders', SameOutcome,
    shown_eq_iff] at hsame
  exact hsame seriesID

theorem entries_ne_nil_of_mem {sourceID : String} (h : sourceID ∈ (selectMatchers ll).sourceIDs) :
    (selectMatchers ll).sourceIDs.entries ≠ [] := by
  intro hnil
  rw [AList.mem_keys, AList.keys, hnil] at h
  cases h

theorem unambiguous_of_orderFree (h : OrderFree q ll)
    (hread : ∀ sourceID ∈ (selectMatchers ll).sourceIDs, ¬ Fails q sourceID) :
    Unambiguous q ll := by
  intro sourceID hs e he hlabels
  cases hmessage : e.message with
  | gauge metrics =>
      intro name name' v v' hv hv' hname hname'
      obtain ⟨order, horder⟩ := exists_messageValue hv hname
      obtain ⟨order', horder'⟩ := exists_messageValue hv' hname'
      -- the two runs differ only in the order of the metrics of `e`
      let orders : MapOrder GaugeValue → Orders :=
        fun o => { Orders.any with metrics := fun _ => o }
      have hpoints :=
        points_of_extend (extend_of_orderFree h (entries_ne_nil_of_mem hs) hread (orders order)
        (orders order') (getSeriesID (seriesTags e)))
      have hbatch : ∀ o, (visited (orders o) ll).flatMap
          (additions q (orders o) (selectMatchers ll)) =
          ((visited Orders.any ll).flatMap (answer q)).filterMap
            (contribution q (orders o) (selectMatchers ll)) := by
        intro o
        exact List.filterMap_flatMap.symm
      rw [hbatch, hbatch, points_withID, points_withID] at hpoints
      have hmem : e ∈ (visited Orders.any ll).flatMap (answer q) :=
        List.mem_flatMap.mpr ⟨sourceID, mem_visited.mpr hs, he⟩
      have heq := Selections.filterMap_pointwise (fun e _ => isSome_pointFor _ _ _ e) hpoints e hmem
      simp only [pointFor, contribution, hlabels, if_true, hmessage, orders, horder, horder',
        Option.map_some, Option.bind_some, Option.some.injEq, Point.mk.injEq, true_and] at heq
      exact heq
  | _ => trivial

theorem separate_of_orderFree (h : OrderFree q ll)
    (hread : ∀ sourceID ∈ (selectMatchers ll).sourceIDs, ¬ Fails q sourceID) : Separate q ll := by
  intro orders s hs t ht hst seriesID
  have hmem : ∀ s ∈ (selectMatchers ll).sourceIDs,
      (⟨s, ()⟩ : Σ _ : String, Unit) ∈ (selectMatchers ll).sourceIDs.entries := by
    intro s hs
    obtain ⟨⟨⟩, hlookup⟩ := SyncMap.mem_iff_lookup.mp hs
    exact SyncMap.mem_entries.mpr hlookup
  obtain ⟨rest, hperm⟩ := Selections.exists_perm_cons_cons (hmem s hs) (hmem t ht)
    fun heq => hst (congrArg Sigma.fst heq)
  obtain ⟨order, horder⟩ := SyncMap.RangeOrder.exists_visit hperm.symm
  obtain ⟨order', horder'⟩ :=
    SyncMap.RangeOrder.exists_visit (hperm.trans (List.Perm.swap _ _ _)).symm
  have hsame := extend_of_orderFree h (entries_ne_nil_of_mem hs) hread
      { orders with sourceIDs := order }
    { orders with sourceIDs := order' } seriesID
  simp only [visited, horder, horder', List.map_cons, List.flatMap_cons,
    ← List.append_assoc] at hsame
  rw [withID_append, withID_append seriesID (_ ++ _)] at hsame
  refine extend_cancel ?_ hsame
  rw [withID_append, withID_append, List.append_eq_nil_iff, List.append_eq_nil_iff]
  exact and_comm

theorem lookup_seriesTags (e : Envelope) : (seriesTags e).lookup "source_id" = some e.sourceId := by
  rw [seriesTags]
  split_ifs
  · exact Finmap.lookup_insert _
  · rw [Finmap.lookup_insert_of_ne _ (by decide), Finmap.lookup_insert]

theorem seriesTags_of_mem {orders : Orders} {selection : Selection} {sourceID : String}
    {x : Addition} (hx : x ∈ additions q orders selection sourceID) :
    ∃ e ∈ answer q sourceID, x.1 = seriesTags e := by
  obtain ⟨e, he, hsome⟩ := List.mem_filterMap.mp hx
  refine ⟨e, he, ?_⟩
  rw [contribution] at hsome
  split_ifs at hsome
  obtain ⟨_, _, rfl⟩ := Option.map_eq_some_iff.mp hsome
  rfl

theorem separate_of_own
    (hown : ∀ s ∈ (selectMatchers ll).sourceIDs, ∀ e ∈ answer q s, e.sourceId = s)
    (hids : ∀ s t, ∀ e ∈ answer q s, ∀ e' ∈ answer q t,
      getSeriesID (seriesTags e) = getSeriesID (seriesTags e') → seriesTags e = seriesTags e') :
        Separate q ll := by
  intro orders s hs t ht hst seriesID
  have hnone : withID seriesID (additions q orders (selectMatchers ll) s) = [] ∨
      withID seriesID (additions q orders (selectMatchers ll) t) = [] := by
    by_contra hboth
    obtain ⟨hleft, hright⟩ := not_or.mp hboth
    obtain ⟨x, hx⟩ := List.exists_mem_of_ne_nil _ hleft
    obtain ⟨y, hy⟩ := List.exists_mem_of_ne_nil _ hright
    obtain ⟨hx, hxid⟩ := mem_withID.mp hx
    obtain ⟨hy, hyid⟩ := mem_withID.mp hy
    obtain ⟨e, he, htags⟩ := seriesTags_of_mem hx
    obtain ⟨e', he', htags'⟩ := seriesTags_of_mem hy
    have hsame := hids s t e he e' he' (by rw [← htags, ← htags', hxid, hyid])
    have hsource := lookup_seriesTags e
    rw [hsame, lookup_seriesTags, hown s hs e he, hown t ht e' he'] at hsource
    exact hst (Option.some.inj hsource).symm
  rw [withID_append, withID_append]
  rcases hnone with hnil | hnil <;> rw [hnil, List.nil_append, List.append_nil]

/-- The outcome of `Select` is free of the orders if and only if a read fails,
or the gauges are unambiguous and the sources do not share series. -/
theorem orderFree_iff (q : LogCacheQuerier) (ll : List Matcher) :
    OrderFree q ll ↔ (∃ sourceID ∈ (selectMatchers ll).sourceIDs, Fails q sourceID) ∨
      Unambiguous q ll ∧ Separate q ll := by
  by_cases hread : ∃ sourceID ∈ (selectMatchers ll).sourceIDs, Fails q sourceID
  · refine iff_of_true (fun orders orders' => ?_) (.inl hread)
    obtain ⟨err, herr⟩ := select_error ll (.inr hread) orders
    obtain ⟨err', herr'⟩ := select_error ll (.inr hread) orders'
    rw [herr, herr']
    trivial
  · rw [or_iff_right hread]
    push Not at hread
    exact ⟨fun h => ⟨unambiguous_of_orderFree h hread, separate_of_orderFree h hread⟩,
      fun h => orderFree_of_separate h.1 h.2 hread⟩

def ambiguous : Envelope :=
  ⟨0, "a", "", ∅, ∅, .gauge (((∅ : GoMap GaugeValue).insert "m.n" ⟨"", ⟨0⟩⟩).insert
    "m-n" ⟨"", ⟨1⟩⟩)⟩

def oneGauge : LogCacheQuerier := ⟨0, 0, 1000000000, fun _ => .ok [ambiguous]⟩

theorem ambiguous_gauge_depends_on_order :
    ¬ OrderFree oneGauge [⟨.equal, "__name__", "m_n"⟩, ⟨.equal, "source_id", "a"⟩] := by
  intro h
  have hread : ∀ sourceID, ¬ Fails oneGauge sourceID := by
    rintro sourceID ⟨err, herr⟩
    cases herr
  have hone := unambiguous_of_orderFree h (fun sourceID _ => hread sourceID) "a"
      (by decide +kernel) ambiguous
    List.mem_cons_self rfl
  exact absurd (hone "m.n" "m-n" ⟨"", ⟨0⟩⟩ ⟨"", ⟨1⟩⟩ (by decide +kernel) (by decide +kernel)
    (by decide +kernel) (by decide +kernel)) (by decide)

end orders

end LogCache.SelectOrders
