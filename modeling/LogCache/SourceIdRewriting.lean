import LogCache.QueryConfinement

namespace LogCache.SourceIdRewriting

open Envelopes Promql PromqlPrinter SourceIds QueryConfinement

variable {sets : GoMap (List String)} {labelMatcher : Matcher} {e : Expr}

section frame

def NamesSourceIds (labelMatcher : Matcher) : Prop :=
  labelMatcher.name = "source_id" ∧ (labelMatcher.type = .equal ∨ labelMatcher.type = .regexp)

instance : DecidablePred NamesSourceIds := fun _ => inferInstanceAs (Decidable (_ ∧ _))

/-- Forget which source IDs a matcher names, and how. -/
def blank (labelMatcher : Matcher) : Matcher :=
  if NamesSourceIds labelMatcher then ⟨.equal, "source_id", ""⟩ else labelMatcher

theorem replaceInMatcher_of_not (h : ¬ NamesSourceIds labelMatcher) :
    replaceInMatcher sets labelMatcher = labelMatcher := by
  rw [replaceInMatcher]
  split_ifs with hname
  · cases htype : labelMatcher.type with
    | equal => exact absurd ⟨hname, .inl htype⟩ h
    | regexp => exact absurd ⟨hname, .inr htype⟩ h
    | notEqual => rfl
    | notRegexp => rfl
  · rfl

theorem namesSourceIds_joined (h : labelMatcher.name = "source_id") (expansions : List String) :
    NamesSourceIds (joined labelMatcher expansions) := by
  refine ⟨h, ?_⟩
  rw [joined]
  dsimp only
  split_ifs
  · exact .inr rfl
  · exact .inl rfl

theorem namesSourceIds_replaceInMatcher (h : NamesSourceIds labelMatcher) :
    NamesSourceIds (replaceInMatcher sets labelMatcher) := by
  rw [replaceInMatcher, if_pos h.1]
  rcases h.2 with htype | htype
  · rw [htype]
    dsimp only
    rw [replaceSourceIdsInEqualMatcher]
    cases sets.lookup labelMatcher.value with
    | none => exact h
    | some expansions => exact namesSourceIds_joined h.1 expansions
  · rw [htype]
    exact namesSourceIds_joined h.1 _

theorem blank_replaceInMatcher (labelMatcher : Matcher) :
    blank (replaceInMatcher sets labelMatcher) = blank labelMatcher := by
  by_cases h : NamesSourceIds labelMatcher
  · rw [blank, blank, if_pos h, if_pos (namesSourceIds_replaceInMatcher h)]
  · rw [replaceInMatcher_of_not h]

theorem blank_replaceInExpr (sets : GoMap (List String)) (e : Expr) :
    (replaceInExpr sets e).mapMatchers blank = e.mapMatchers blank := by
  rw [replaceInExpr, mapMatchers_comp]
  exact (mapMatchers_eq_iff e).mpr fun labelMatcher _ => blank_replaceInMatcher labelMatcher

end frame

section expansions

theorem namesSourceIds_of_requested (h : requested labelMatcher ≠ []) :
    labelMatcher.name = "source_id" := by
  by_contra hname
  exact h (if_neg hname)

theorem mem_requested_replaced
    (hsets : ∀ id ∈ requested labelMatcher, ∃ set, sets.lookup id = some set ∧ set ≠ [])
    (hplain : ∀ id set, sets.lookup id = some set → ∀ x ∈ set, '|' ∉ x.toList) {id : String} :
    id ∈ requested (replaceInMatcher sets labelMatcher) ↔
      ∃ x ∈ requested labelMatcher, id ∈ expansionsOf sets x := by
  by_cases hreq : requested labelMatcher = []
  · rw [requested_replaceInMatcher_of_nil hreq, hreq]
    simp
  · have hne : (requested labelMatcher).flatMap (expansionsOf sets) ≠ [] := by
      obtain ⟨x, hx⟩ := List.exists_mem_of_ne_nil _ hreq
      obtain ⟨set, hset, hset_ne⟩ := hsets x hx
      obtain ⟨y, hy⟩ := List.exists_mem_of_ne_nil _ hset_ne
      have hmem : y ∈ expansionsOf sets x := by
        rw [expansionsOf, hset]
        exact hy
      exact List.ne_nil_of_mem (List.mem_flatMap.mpr ⟨x, hx, hmem⟩)
    have hsplit : ∀ y ∈ (requested labelMatcher).flatMap (expansionsOf sets), split y = [y] := by
      intro y hy
      obtain ⟨x, hx, hy⟩ := List.mem_flatMap.mp hy
      obtain ⟨set, hset, -⟩ := hsets x hx
      rw [expansionsOf, hset] at hy
      exact split_of_not_mem (hplain x set hset y hy)
    rw [replaceInMatcher_eq hreq fun id hid => (hsets id hid).imp fun _ h => h.1,
      requested_joined (namesSourceIds_of_requested hreq) hne, List.flatMap_congr hsplit,
        List.flatMap_singleton',
      ite_self, List.mem_flatMap]

theorem exists_requested_replaced {matchers : List Matcher}
    (hreq : ∀ labelMatcher ∈ matchers, ∀ id, id ∈ requested (replaceInMatcher sets labelMatcher) ↔
      ∃ x ∈ requested labelMatcher, id ∈ expansionsOf sets x) (id : String) :
    (∃ labelMatcher ∈ matchers.map (replaceInMatcher sets), id ∈ requested labelMatcher) ↔
      ∃ x, (∃ labelMatcher ∈ matchers, x ∈ requested labelMatcher) ∧ id ∈ expansionsOf sets x := by
  constructor
  · rintro ⟨_, hmap, hid⟩
    obtain ⟨labelMatcher, hmem, rfl⟩ := List.mem_map.mp hmap
    obtain ⟨x, hx, hid⟩ := (hreq labelMatcher hmem id).mp hid
    exact ⟨x, ⟨labelMatcher, hmem, hx⟩, hid⟩
  · rintro ⟨x, ⟨labelMatcher, hmem, hx⟩, hid⟩
    exact ⟨_, List.mem_map_of_mem hmem, (hreq labelMatcher hmem id).mpr ⟨x, hx, hid⟩⟩

theorem extractSourceIds_ok {parseExpr : String → Except String Expr} {query : String}
    (hparse : parseExpr query = .ok e) (order : SyncMap.RangeOrder String Unit) :
    ∃ ids, extractSourceIds parseExpr order query = .ok ids := by
  rw [extractSourceIds, hparse]
  exact ⟨_, rfl⟩

end expansions

/-- If every ID of the query has a set, and no ID in a set contains the
separator, the rewriting exchanges the IDs for their sets: in each selector,
and so in the whole query. Nothing else of the expression changes. -/
theorem rewriting_exact (lang : Language) (order order' : SyncMap.RangeOrder String Unit)
    (query : String) (e : Expr) (sets : GoMap (List String)) (hparse : lang.parseExpr query = .ok e)
    (hround : lang.parseExpr (lang.print (replaceInExpr sets e)) = .ok (replaceInExpr sets e))
    (hsets : ∀ id ∈ visitSourceIDs e, ∃ set, sets.lookup id = some set ∧ set ≠ [])
    (hplain : ∀ id set, sets.lookup id = some set → ∀ x ∈ set, '|' ∉ x.toList) :
    ∃ modifiedQuery e' ids ids', replaceSourceIdSets sets lang.parseExpr lang.print query =
      .ok modifiedQuery ∧
      lang.parseExpr modifiedQuery = .ok e' ∧ e'.mapMatchers blank = e.mapMatchers blank ∧
      List.Forall₂ (fun selector selector' => ∀ id, id ∈ addSourceIDsFromMatchers ∅ selector' ↔
        ∃ x ∈ addSourceIDsFromMatchers ∅ selector, id ∈ expansionsOf sets x) e.selectors
          e'.selectors ∧
      extractSourceIds lang.parseExpr order query = .ok ids ∧
      extractSourceIds lang.parseExpr order' modifiedQuery = .ok ids' ∧
      ∀ id, id ∈ ids' ↔ ∃ x ∈ ids, id ∈ expansionsOf sets x := by
  have hreq : ∀ labelMatcher ∈ e.selectors.flatten, ∀ id,
      id ∈ requested (replaceInMatcher sets labelMatcher) ↔
        ∃ x ∈ requested labelMatcher, id ∈ expansionsOf sets x := by
    intro labelMatcher hmem id
    refine mem_requested_replaced (fun x hx => ?_) hplain
    exact hsets x ((mem_visitSourceIDs e).mpr ⟨labelMatcher, hmem, hx⟩)
  obtain ⟨ids, hids⟩ := extractSourceIds_ok hparse order
  obtain ⟨ids', hids'⟩ := extractSourceIds_ok hround order'
  have hreplace : replaceSourceIdSets sets lang.parseExpr lang.print query =
      .ok (lang.print (replaceInExpr sets e)) := by
    rw [replaceSourceIdSets, hparse]
    rfl
  refine ⟨_, _, ids, ids', hreplace, hround, blank_replaceInExpr sets e, ?_, hids, hids',
    fun id => ?_⟩
  · rw [replaceInExpr, selectors_mapMatchers, List.forall₂_map_right_iff, List.forall₂_same]
    intro selector hselector id
    simp only [mem_addSourceIDsFromMatchers, AList.notMem_empty, false_or]
    apply exists_requested_replaced
    exact fun labelMatcher hmem => hreq labelMatcher
      (List.mem_flatten.mpr ⟨selector, hselector, hmem⟩)
  · rw [mem_extractSourceIds hround hids', mem_visitSourceIDs, replaceInExpr, selectors_mapMatchers,
      ← List.map_flatten, exists_requested_replaced hreq]
    simp only [mem_extractSourceIds hparse hids, mem_visitSourceIDs]

def twoIds : GoMap (List String) := (∅ : GoMap (List String)).insert "a" ["x", "y"]

theorem rewriting_exact_two_ids :
    ∃ modifiedQuery ids', replaceSourceIdSets twoIds oneSelector.parseExpr oneSelector.print
        "m\x7bsource_id=\"a\"\x7d" = .ok modifiedQuery ∧
      extractSourceIds oneSelector.parseExpr .id modifiedQuery = .ok ids' ∧
      ∀ id, id ∈ ids' ↔ id ∈ ["x", "y"] := by
  have hlookup : twoIds.lookup "a" = some ["x", "y"] := rfl
  have hsets : ∀ id ∈ visitSourceIDs (vectorSelector "m" [⟨.equal, "source_id", "a"⟩]),
      ∃ set, twoIds.lookup id = some set ∧ set ≠ [] := by
    intro id hid
    rw [mem_visitSourceIDs] at hid
    obtain rfl : id = "a" := by simpa [vectorSelector, Expr.selectors, requested] using hid
    exact ⟨_, hlookup, List.cons_ne_nil _ _⟩
  have hplain : ∀ id set, twoIds.lookup id = some set → ∀ x ∈ set, '|' ∉ x.toList := by
    intro id set hset
    by_cases hid : id = "a"
    · rw [hid, hlookup] at hset
      cases hset
      decide
    · rw [twoIds, Finmap.lookup_insert_of_ne _ hid] at hset
      cases hset
  obtain ⟨modifiedQuery, e', ids, ids', hreplaced, -, -, -, hold, hnew, hall⟩ :=
    rewriting_exact oneSelector .id .id "m\x7bsource_id=\"a\"\x7d"
      (vectorSelector "m" [⟨.equal, "source_id", "a"⟩]) twoIds rfl rfl hsets hplain
  refine ⟨modifiedQuery, ids', hreplaced, hnew, fun id => ?_⟩
  obtain rfl : ["a"] = ids := Except.ok.inj hold
  rw [hall, List.exists_mem_cons_iff, expansionsOf, hlookup]
  simp

section identity

def IsPattern (labelMatcher : Matcher) : Prop :=
  labelMatcher.name = "source_id" ∧ labelMatcher.type = .regexp

instance : DecidablePred IsPattern := fun _ => inferInstanceAs (Decidable (_ ∧ _))

def cleared (labelMatcher : Matcher) : Matcher :=
  if IsPattern labelMatcher then ⟨.equal, labelMatcher.name, ""⟩ else labelMatcher

theorem replaceInMatcher_eq_cleared (hnone : ∀ id ∈ requested labelMatcher, sets.lookup id = none) :
    replaceInMatcher sets labelMatcher = cleared labelMatcher := by
  rw [requested] at hnone
  rw [replaceInMatcher, cleared]
  by_cases hname : labelMatcher.name = "source_id"
  · rw [if_pos hname] at hnone ⊢
    cases htype : labelMatcher.type with
    | equal =>
        rw [htype] at hnone
        dsimp only
        rw [replaceSourceIdsInEqualMatcher, hnone labelMatcher.value (List.mem_singleton_self _),
          if_neg fun h => by rw [IsPattern, htype] at h; cases h.2]
    | regexp =>
        rw [htype] at hnone
        dsimp only at hnone ⊢
        have hempty : (split labelMatcher.value).flatMap (expansionsOf sets) = [] := by
          rw [List.flatMap_eq_nil_iff]
          intro id hid
          rw [expansionsOf, hnone id hid]
          rfl
        rw [replaceSourceIdsInRegexpMatcher, hempty, if_pos ⟨hname, htype⟩]
        rfl
    | notEqual => rw [if_neg fun h => by rw [IsPattern, htype] at h; cases h.2]
    | notRegexp => rw [if_neg fun h => by rw [IsPattern, htype] at h; cases h.2]
  · rw [if_neg hname, if_neg fun h => hname h.1]

theorem replaceInExpr_eq_cleared (hnone : ∀ id ∈ visitSourceIDs e, sets.lookup id = none) :
    replaceInExpr sets e = e.mapMatchers cleared := by
  rw [replaceInExpr, mapMatchers_eq_iff]
  intro labelMatcher hmem
  exact replaceInMatcher_eq_cleared fun id hid =>
    hnone id ((mem_visitSourceIDs e).mpr ⟨labelMatcher, hmem, hid⟩)

theorem not_isName {name : String} (h : labelMatcher.name = "source_id") :
    ¬ IsName name labelMatcher := by
  rintro ⟨hname, -⟩
  rw [h] at hname
  exact absurd hname (by decide)

theorem shortens_cleared (f : Formats) :
    Shortens f cleared fun labelMatcher => decide (IsPattern labelMatcher) where
  isName name labelMatcher := by
    rw [cleared]
    split_ifs with h
    · exact iff_of_false (not_isName h.1) (not_isName h.1)
    · rfl
  written name labelMatcher h := not_isName (of_decide_eq_true h).1
  length labelMatcher := by
    rw [cleared]
    by_cases h : IsPattern labelMatcher
    · have htext := two_le_length_quote f labelMatcher.value
      have hplain : (quote f "").length = 2 := congrArg String.length (quote_empty f)
      have hequal : (matchTypeString .equal).length = 1 := rfl
      have hregexp : (matchTypeString .regexp).length = 2 := rfl
      rw [if_pos h, if_pos (decide_eq_true h), matcherString, matcherString, h.2]
      simp only [String.length_append]
      omega
    · rw [if_neg h, if_neg (by simpa using h), Nat.add_zero]

end identity

/-- Without a set for any of its IDs a query comes back as its parse is printed,
exactly if no source ID is given by a regular expression. -/
theorem unmodified_iff (f : Formats) (parseExpr : String → Except String Expr) (query : String)
    (e : Expr) (sets : GoMap (List String)) (hparse : parseExpr query = .ok e)
    (hparams : ParamsTaken e) (hnone : ∀ id ∈ visitSourceIDs e, sets.lookup id = none) :
    replaceSourceIdSets sets parseExpr (exprString f) query = .ok (exprString f e) ↔
      ∀ labelMatcher ∈ e.selectors.flatten,
        labelMatcher.name = "source_id" → labelMatcher.type ≠ .regexp := by
  have hreplaced : replaceSourceIdSets sets parseExpr (exprString f) query =
      .ok (exprString f (e.mapMatchers cleared)) := by
    rw [replaceSourceIdSets, hparse, ← replaceInExpr_eq_cleared hnone]
    rfl
  rw [hreplaced]
  constructor
  · intro h labelMatcher hmem hname htype
    have hshorter := exprString_shorter (shortens_cleared f) e hparams
    have hlost : 0 < e.selectors.flatten.countP fun labelMatcher =>
        decide (IsPattern labelMatcher) :=
      List.countP_pos_iff.mpr ⟨labelMatcher, hmem, decide_eq_true ⟨hname, htype⟩⟩
    rw [Except.ok.inj h] at hshorter
    omega
  · intro h
    have hid : e.mapMatchers cleared = e.mapMatchers id := by
      rw [mapMatchers_eq_iff]
      exact fun labelMatcher hmem => if_neg fun hp => h labelMatcher hmem hp.1 hp.2
    rw [hid, mapMatchers_id]

/-- The matchers come back in the order of their texts. -/
theorem unmodified_iff_equality :
    replaceSourceIdSets twoIds oneSelector.parseExpr oneSelector.print
        "m\x7bsource_id=\"b\",job=~\"x|y\"\x7d" = .ok "m\x7bjob=~\"x|y\",source_id=\"b\"\x7d" := by
  refine (unmodified_iff ⟨printable, fun _ => "NaN"⟩ oneSelector.parseExpr
    "m\x7bsource_id=\"b\",job=~\"x|y\"\x7d"
    (vectorSelector "m" [⟨.equal, "source_id", "b"⟩, ⟨.regexp, "job", "x|y"⟩]) twoIds rfl
      trivial ?_).mpr ?_
  · intro id hid
    rw [mem_visitSourceIDs] at hid
    obtain rfl : id = "b" := by simpa [vectorSelector, Expr.selectors, requested] using hid
    rfl
  · simp [vectorSelector, Expr.selectors]

/-- The empty map turns a regular expression into the empty ID. -/
theorem regexp_is_modified :
    oneSelector.parseExpr "metric\x7bsource_id=~\"a|b\"\x7d" =
        .ok (vectorSelector "metric" [⟨.regexp, "source_id", "a|b"⟩]) ∧
      oneSelector.print (vectorSelector "metric" [⟨.regexp, "source_id", "a|b"⟩]) =
        "metric\x7bsource_id=~\"a|b\"\x7d" ∧
      replaceSourceIdSets ∅ oneSelector.parseExpr oneSelector.print
        "metric\x7bsource_id=~\"a|b\"\x7d" =
        .ok "metric\x7bsource_id=\"\"\x7d" :=
  ⟨rfl, rfl, rfl⟩

end LogCache.SourceIdRewriting
