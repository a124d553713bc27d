import LogCache.Querier

namespace LogCache.SeriesSets

open Envelopes MapOrders Querier

abbrev Addition := GoMap String × Point

section builder

def addAll (b : SeriesSetBuilder) (adds : List Addition) : SeriesSetBuilder :=
  adds.foldl (fun b x => add b x.1 x.2) b

/-- An entry of the builder after additions to it. The tags of the first one
stay. -/
def extend (d : Option SeriesData) (adds : List Addition) : Option SeriesData :=
  match d, adds with
  | none, [] => none
  | none, x :: adds => some ⟨x.1, x.2 :: adds.map Prod.snd⟩
  | some d, adds => some ⟨d.tags, d.points ++ adds.map Prod.snd⟩

theorem extend_nil (d : Option SeriesData) : extend d [] = d := by
  cases d with
  | none => rfl
  | some d => rw [extend, List.map_nil, List.append_nil]

theorem extend_append (d : Option SeriesData) (xs ys : List Addition) :
    extend d (xs ++ ys) = extend (extend d xs) ys := by
  cases d with
  | none =>
      cases xs with
      | nil => rw [extend_nil, List.nil_append]
      | cons x xs => simp [extend]
  | some d => simp [extend]

theorem points_of_extend {xs ys : List Addition} (h : extend none xs = extend none ys) :
    xs.map Prod.snd = ys.map Prod.snd := by
  cases xs with
  | nil =>
      cases ys with
      | nil => rfl
      | cons y ys => cases h
  | cons x xs =>
      cases ys with
      | nil => cases h
      | cons y ys => exact congrArg SeriesData.points (Option.some.inj h)

theorem extend_comm {xs ys : List Addition} (h : extend none (xs ++ ys) = extend none (ys ++ xs))
    (d : Option SeriesData) : extend (extend d xs) ys = extend (extend d ys) xs := by
  rw [← extend_append, ← extend_append]
  cases d with
  | none => exact h
  | some d => rw [extend, extend, points_of_extend h]

theorem extend_cancel {xs ys rest : List Addition} (hnil : xs = [] ↔ ys = [])
    (h : extend none (xs ++ rest) = extend none (ys ++ rest)) :
    extend none xs = extend none ys := by
  cases xs with
  | nil => rw [hnil.mp rfl]
  | cons x xs =>
      cases ys with
      | nil => exact absurd (hnil.mpr rfl) (List.cons_ne_nil x xs)
      | cons y ys =>
          simp only [List.cons_append, extend, List.map_append, Option.some.injEq,
            SeriesData.mk.injEq, List.cons.injEq, List.append_left_inj] at h ⊢
          exact h

theorem extend_eq_none {adds : List Addition} : extend none adds = none ↔ adds = [] := by
  cases adds with
  | nil => exact iff_of_true rfl rfl
  | cons x adds => exact iff_of_false (fun h => nomatch h) (fun h => nomatch h)

def withID (seriesID : String) (adds : List Addition) : List Addition :=
  adds.filter fun x => decide (getSeriesID x.1 = seriesID)

theorem mem_withID {seriesID : String} {adds : List Addition} {x : Addition} :
    x ∈ withID seriesID adds ↔ x ∈ adds ∧ getSeriesID x.1 = seriesID := by
  rw [withID, List.mem_filter, decide_eq_true_eq]

theorem withID_append (seriesID : String) (xs ys : List Addition) :
    withID seriesID (xs ++ ys) = withID seriesID xs ++ withID seriesID ys := List.filter_append ..

theorem lookup_add (b : SeriesSetBuilder) (x : Addition) (seriesID : String) :
    (add b x.1 x.2).lookup seriesID = extend (b.lookup seriesID) (withID seriesID [x]) := by
  rw [add, SyncMap.lookup_insert_eq]
  by_cases hid : getSeriesID x.1 = seriesID
  · have hwith : withID seriesID [x] = [x] := List.filter_cons_of_pos (by simpa using hid)
    rw [if_pos hid.symm, hwith, hid]
    cases b.lookup seriesID <;> rfl
  · have hwith : withID seriesID [x] = [] := List.filter_cons_of_neg (by simpa using hid)
    rw [if_neg (Ne.symm hid), hwith, extend_nil]

theorem lookup_addAll (b : SeriesSetBuilder) (adds : List Addition) (seriesID : String) :
    (addAll b adds).lookup seriesID = extend (b.lookup seriesID) (withID seriesID adds) := by
  induction adds generalizing b with
  | nil => exact (extend_nil _).symm
  | cons x adds ih =>
      change (addAll (add b x.1 x.2) adds).lookup seriesID = _
      rw [ih, lookup_add, ← extend_append, ← withID_append]
      rfl

theorem getSeriesID_of_lookup {adds : List Addition} {seriesID : String} {d : SeriesData}
    (h : (addAll ∅ adds).lookup seriesID = some d) : getSeriesID d.tags = seriesID := by
  rw [lookup_addAll, AList.lookup_empty] at h
  cases hadds : withID seriesID adds with
  | nil => rw [hadds] at h; cases h
  | cons x xs =>
      rw [hadds] at h
      cases h
      exact (mem_withID.mp (hadds ▸ List.mem_cons_self)).2

end builder

section labels

def tagsOf (labels : List Label) : GoMap String :=
  insertAll ∅ (labels.map fun l => ⟨l.name, l.value⟩)

theorem tagsOf_convertToLabels (order : MapOrder String) (tags : GoMap String) :
    tagsOf (convertToLabels order tags) = tags := by
  have hentries : (convertToLabels order tags).map
      (fun l => (⟨l.name, l.value⟩ : Σ _ : String, String)) =
      order.visit tags := by
    rw [convertToLabels, List.map_map]
    exact List.map_id _
  apply Finmap.ext_lookup
  intro name
  rw [tagsOf, hentries, lookup_insertAll_visit, Finmap.lookup_empty, Option.or_none]

theorem names_nodup (order : MapOrder String) (tags : GoMap String) :
    ((convertToLabels order tags).map Label.name).Nodup := by
  rw [convertToLabels, List.map_map]
  exact nodupKeys_visit order tags

end labels

section ids

variable {tags tags' : GoMap String}

theorem getSeriesID_of_sorted {keys : List String} (hkeys : keys.toFinset = tags.keys)
    (hsorted : keys.Pairwise (· < ·)) :
    getSeriesID tags =
      keys.foldl (fun seriesID k => seriesID ++ "-" ++ k ++ "-" ++ (tags.lookup k).getD "") "" := by
  have hnodup : keys.Nodup := hsorted.imp ne_of_lt
  rw [getSeriesID, ← hkeys, (List.toFinset_sort (· ≤ ·) hnodup).mpr (hsorted.imp le_of_lt)]

def piece (p : String × String) : List Char := '-' :: p.1.toList ++ '-' :: p.2.toList

def entriesOf (tags : GoMap String) (names : List String) : List (String × String) :=
  names.map fun k => (k, (tags.lookup k).getD "")

theorem toList_getSeriesID (tags : GoMap String) :
    (getSeriesID tags).toList = (entriesOf tags (tags.keys.sort (· ≤ ·))).flatMap piece := by
  have hfold : ∀ (keys : List String) (seriesID : String),
      (keys.foldl (fun seriesID k => seriesID ++ "-" ++ k ++ "-" ++ (tags.lookup k).getD "")
        seriesID).toList =
        seriesID.toList ++ (keys.map fun k => (k, (tags.lookup k).getD "")).flatMap piece := by
    intro keys
    induction keys with
    | nil => simp
    | cons k keys ih =>
        intro seriesID
        rw [List.foldl_cons, ih]
        simp [piece, String.toList_append]
  rw [getSeriesID, hfold, entriesOf]
  rfl

theorem append_inj_of_dashFree {a b r r' : List Char} (ha : '-' ∉ a) (hb : '-' ∉ b)
    (hr : r.head?.all (· = '-') = true) (hr' : r'.head?.all (· = '-') = true)
    (h : a ++ r = b ++ r') :
    a = b ∧ r = r' := by
  induction a generalizing b with
  | nil =>
      cases b with
      | nil => exact ⟨rfl, h⟩
      | cons c b =>
          rw [List.nil_append] at h
          rw [h] at hr
          exact absurd (by simpa using hr) (List.ne_of_not_mem_cons hb).symm
  | cons c a ih =>
      cases b with
      | nil =>
          rw [List.nil_append] at h
          rw [← h] at hr'
          exact absurd (by simpa using hr') (List.ne_of_not_mem_cons ha).symm
      | cons c' b =>
          obtain ⟨rfl, htail⟩ := List.cons.inj h
          obtain ⟨rfl, hrest⟩ :=
            ih (List.not_mem_of_not_mem_cons ha) (List.not_mem_of_not_mem_cons hb) htail
          exact ⟨rfl, hrest⟩

theorem head_pieces (xs : List (String × String)) :
    (xs.flatMap piece).head?.all (· = '-') = true := by
  cases xs with
  | nil => rfl
  | cons x xs => rfl

def DashFree (p : String × String) : Prop := '-' ∉ p.1.toList ∧ '-' ∉ p.2.toList

theorem pieces_inj {xs ys : List (String × String)} (hxs : ∀ x ∈ xs, DashFree x)
    (hys : ∀ y ∈ ys, DashFree y) (h : xs.flatMap piece = ys.flatMap piece) : xs = ys := by
  induction xs generalizing ys with
  | nil =>
      cases ys with
      | nil => rfl
      | cons y ys => cases h
  | cons x xs ih =>
      cases ys with
      | nil => cases h
      | cons y ys =>
          obtain ⟨hx, hxs⟩ := List.forall_mem_cons.mp hxs
          obtain ⟨hy, hys⟩ := List.forall_mem_cons.mp hys
          simp only [List.flatMap_cons, piece, List.cons_append, List.append_assoc, List.cons.injEq,
            true_and] at h
          obtain ⟨hname, h⟩ := append_inj_of_dashFree hx.1 hy.1 rfl rfl h
          obtain ⟨hvalue, h⟩ :=
            append_inj_of_dashFree hx.2 hy.2 (head_pieces xs) (head_pieces ys) (List.cons.inj h).2
          rw [ih hxs hys h, Prod.ext (String.toList_inj.mp hname) (String.toList_inj.mp hvalue)]

theorem mem_entriesOf {k v : String} :
    (k, v) ∈ entriesOf tags (tags.keys.sort (· ≤ ·)) ↔ tags.lookup k = some v := by
  rw [entriesOf, List.mem_map]
  constructor
  · rintro ⟨k', hk', heq⟩
    obtain ⟨rfl, hv⟩ := Prod.mk.inj heq
    obtain ⟨v', hv'⟩ := Finmap.mem_iff.mp (Finmap.mem_keys.mp ((Finset.mem_sort _).mp hk'))
    rw [hv'] at hv ⊢
    exact congrArg some hv
  · intro hv
    refine ⟨k, (Finset.mem_sort _).mpr (Finmap.mem_keys.mpr (Finmap.mem_of_lookup_eq_some hv)), ?_⟩
    rw [hv]
    rfl

theorem entriesOf_inj
    (h : entriesOf tags (tags.keys.sort (· ≤ ·)) = entriesOf tags' (tags'.keys.sort (· ≤ ·))) :
    tags = tags' := by
  apply Finmap.ext_lookup
  intro k
  ext v
  rw [← mem_entriesOf, ← mem_entriesOf, h]

theorem getSeriesID_inj (htags : ∀ k v, tags.lookup k = some v → DashFree (k, v))
    (htags' : ∀ k v, tags'.lookup k = some v → DashFree (k, v))
    (h : getSeriesID tags = getSeriesID tags') :
    tags = tags' := by
  apply entriesOf_inj
  apply pieces_inj (fun p hp => htags p.1 p.2 (mem_entriesOf.mp hp))
    (fun p hp => htags' p.1 p.2 (mem_entriesOf.mp hp))
  rw [← toList_getSeriesID, ← toList_getSeriesID, h]

end ids

section grouping

variable {adds : List Addition}

def pointsWith (tags : GoMap String) (adds : List Addition) : List Point :=
  (adds.filter fun x => decide (x.1 = tags)).map Prod.snd

/-- One series for each tag map that was added, with the points of that map in
the order of the additions. -/
structure OneSeriesPerTags (adds : List Addition) (set : List ConcreteSeries) : Prop where
  series : (set.map fun series => (tagsOf series.labels, series.points)).Perm
    ((adds.map Prod.fst).dedup.map fun tags => (tags, pointsWith tags adds))
  labels : ∀ series ∈ set, (series.labels.map Label.name).Nodup

/-- No two of the tag maps run together in the ID. -/
def DistinctIDs (adds : List Addition) : Prop :=
  ∀ x ∈ adds, ∀ y ∈ adds, getSeriesID x.1 = getSeriesID y.1 → x.1 = y.1

theorem lookup_of_distinctIDs (hdistinct : DistinctIDs adds) {x : Addition} (hx : x ∈ adds) :
    (addAll ∅ adds).lookup (getSeriesID x.1) = some ⟨x.1, pointsWith x.1 adds⟩ := by
  have hwith : withID (getSeriesID x.1) adds = adds.filter fun y => decide (y.1 = x.1) := by
    refine List.filter_congr fun y hy => decide_eq_decide.mpr ?_
    exact ⟨hdistinct y hy x hx, congrArg getSeriesID⟩
  rw [lookup_addAll, AList.lookup_empty, hwith, pointsWith]
  cases hfilter : adds.filter fun y => decide (y.1 = x.1) with
  | nil => exact absurd (decide_eq_true rfl) (List.filter_eq_nil_iff.mp hfilter x hx)
  | cons y ys =>
      have hmem : y ∈ adds.filter fun y => decide (y.1 = x.1) := hfilter ▸ List.mem_cons_self
      have hy : y.1 = x.1 := of_decide_eq_true (List.mem_filter.mp hmem).2
      rw [extend, hy, List.map_cons]

theorem exists_of_lookup {seriesID : String} {d : SeriesData}
    (h : (addAll ∅ adds).lookup seriesID = some d) :
    ∃ x ∈ adds, getSeriesID x.1 = seriesID := by
  rw [lookup_addAll, AList.lookup_empty] at h
  obtain ⟨x, hx⟩ : ∃ x, x ∈ withID seriesID adds := by
    refine List.exists_mem_of_ne_nil _ fun hnil => ?_
    rw [hnil] at h
    cases h
  exact ⟨x, mem_withID.mp hx⟩

theorem entries_perm_of_distinctIDs (hdistinct : DistinctIDs adds) :
    ((addAll ∅ adds).entries.map fun p => (p.2.tags, p.2.points)).Perm
      ((adds.map Prod.fst).dedup.map fun tags => (tags, pointsWith tags adds)) := by
  -- both lists are without repetition, by the IDs and by the tags
  rw [List.perm_ext_iff_of_nodup]
  · rintro ⟨tags, points⟩
    simp only [List.mem_map, List.mem_dedup, Prod.mk.injEq]
    constructor
    · rintro ⟨⟨seriesID, d⟩, hp, htags, hpoints⟩
      have hlookup := SyncMap.mem_entries.mp hp
      obtain ⟨x, hx, hid⟩ := exists_of_lookup hlookup
      rw [← hid, lookup_of_distinctIDs hdistinct hx] at hlookup
      cases hlookup
      subst htags hpoints
      exact ⟨x.1, ⟨x, hx, rfl⟩, rfl, rfl⟩
    · rintro ⟨tags', ⟨x, hx, htags'⟩, htags, hpoints⟩
      subst htags' htags hpoints
      exact ⟨⟨_, _⟩, SyncMap.mem_entries.mpr (lookup_of_distinctIDs hdistinct hx), rfl, rfl⟩
  · apply List.Nodup.of_map (fun p => getSeriesID p.1)
    have hkeys : ((addAll ∅ adds).entries.map fun p => (p.2.tags, p.2.points)).map
        (fun p => getSeriesID p.1) =
        (addAll ∅ adds).entries.map Sigma.fst := by
      rw [List.map_map]
      exact List.map_congr_left fun p hp => getSeriesID_of_lookup (SyncMap.mem_entries.mp hp)
    rw [hkeys]
    exact (addAll ∅ adds).nodupKeys
  · apply List.Nodup.of_map Prod.fst
    rw [List.map_map]
    exact (List.map_id _).symm ▸ List.nodup_dedup _

theorem keys_addAll (adds : List Addition) :
    (addAll ∅ adds).keys.toFinset = (adds.map Prod.fst).toFinset.image getSeriesID := by
  ext seriesID
  simp only [List.mem_toFinset, ← AList.mem_keys, Finset.mem_image, List.mem_map,
    SyncMap.mem_iff_lookup]
  constructor
  · rintro ⟨d, hd⟩
    obtain ⟨x, hx, hid⟩ := exists_of_lookup hd
    exact ⟨x.1, ⟨x, hx, rfl⟩, hid⟩
  · rintro ⟨tags, ⟨x, hx, rfl⟩, hid⟩
    rw [lookup_addAll, AList.lookup_empty, ← Option.ne_none_iff_exists', Ne, extend_eq_none]
    exact List.ne_nil_of_mem (mem_withID.mpr ⟨hx, hid⟩)

theorem distinctIDs_of_length
    (h : (addAll ∅ adds).entries.length = (adds.map Prod.fst).dedup.length) :
    DistinctIDs adds := by
  have hcard : ((adds.map Prod.fst).toFinset.image getSeriesID).card =
      (adds.map Prod.fst).toFinset.card := by
    rw [← keys_addAll, List.toFinset_card_of_nodup (AList.keys_nodup _), AList.keys, List.keys,
      List.length_map, h, List.card_toFinset]
  have hinj := Finset.card_image_iff.mp hcard
  intro x hx y hy hid
  exact hinj (List.mem_toFinset.mpr (List.mem_map_of_mem hx))
    (List.mem_toFinset.mpr (List.mem_map_of_mem hy)) hid

theorem buildSeriesSet_perm (order : SyncMap.RangeOrder String SeriesData)
    (labelOrder : MapOrder String) (b : SeriesSetBuilder) :
    ((buildSeriesSet order labelOrder b).map fun series =>
      (tagsOf series.labels, series.points)).Perm
      (b.entries.map fun p => (p.2.tags, p.2.points)) := by
  rw [buildSeriesSet, List.map_map]
  simp only [Function.comp_def, tagsOf_convertToLabels]
  exact (order.perm b.entries).map _

theorem distinctIDs_of_oneSeries {order : SyncMap.RangeOrder String SeriesData}
    {labelOrder : MapOrder String}
    (h : OneSeriesPerTags adds (buildSeriesSet order labelOrder (addAll ∅ adds))) :
    DistinctIDs adds := by
  have hlength := ((buildSeriesSet_perm order labelOrder (addAll ∅ adds)).symm.trans
      h.series).length_eq
  rw [List.length_map, List.length_map] at hlength
  exact distinctIDs_of_length hlength

theorem distinctIDs_of_dashFree (h : ∀ x ∈ adds, ∀ k v, x.1.lookup k = some v → DashFree (k, v)) :
    DistinctIDs adds :=
  fun x hx y hy => getSeriesID_inj (h x hx) (h y hy)

/-- The builder groups the points by their tags if and only if the tag maps
that were added have IDs of their own. The ID runs names and values together
with dashes, which both may contain. -/
theorem oneSeriesPerTags_iff (order : SyncMap.RangeOrder String SeriesData)
    (labelOrder : MapOrder String) (adds : List Addition) :
    OneSeriesPerTags adds (buildSeriesSet order labelOrder (addAll ∅ adds)) ↔ DistinctIDs adds := by
  refine ⟨distinctIDs_of_oneSeries, fun hdistinct => ?_⟩
  have hbuilt := buildSeriesSet_perm order labelOrder (addAll ∅ adds)
  refine ⟨hbuilt.trans (entries_perm_of_distinctIDs hdistinct), fun series hseries => ?_⟩
  obtain ⟨p, -, rfl⟩ := List.mem_map.mp hseries
  exact names_nodup labelOrder p.2.tags

def dashed : List Addition :=
  [((∅ : GoMap String).insert "a" "b-c-d", ⟨0, ⟨0⟩⟩),
    (((∅ : GoMap String).insert "a" "b").insert "c" "d", ⟨1, ⟨0⟩⟩)]

theorem dashed_tags_share_a_series :
    ¬ OneSeriesPerTags dashed (buildSeriesSet .id .any (addAll ∅ dashed)) := by
  intro hgrouped
  have hids : getSeriesID (dashed[0]).1 = getSeriesID (dashed[1]).1 := by
    rw [@getSeriesID_of_sorted _ ["a"] (by decide +kernel) (by decide +kernel),
      @getSeriesID_of_sorted _ ["a", "c"] (by decide +kernel) (by decide +kernel)]
    decide +kernel
  have hsame := distinctIDs_of_oneSeries hgrouped dashed[0] (List.getElem_mem _) dashed[1]
      (List.getElem_mem _) hids
  exact absurd hsame (by decide +kernel)

end grouping

end LogCache.SeriesSets
