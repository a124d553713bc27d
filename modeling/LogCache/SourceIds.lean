import LogCache.Promql

namespace LogCache.SourceIds

open Envelopes Promql

section strings

def split (s : String) : List String := (s.toList.splitOn '|').map String.ofList

def join (xs : List String) : String := String.ofList (['|'].intercalate (xs.map String.toList))

theorem splitOn_intercalate_flatMap (xs : List (List Char)) (hne : xs ≠ []) :
    (['|'].intercalate xs).splitOn '|' = xs.flatMap (List.splitOn '|') := by
  induction xs with
  | nil => exact absurd rfl hne
  | cons x xs ih =>
      cases xs with
      | nil =>
          rw [List.flatMap_cons, List.flatMap_nil, List.append_nil, List.intercalate_singleton]
      | cons y ys =>
          rw [List.intercalate_cons_cons, List.append_assoc, List.flatMap_cons,
            ← ih (List.cons_ne_nil y ys)]
          exact List.splitOnP_append_cons x _ rfl

theorem split_join {xs : List String} (hne : xs ≠ []) : split (join xs) = xs.flatMap split := by
  have hmap : xs.map String.toList ≠ [] := fun h => hne (List.map_eq_nil_iff.mp h)
  rw [split, join, String.toList_ofList, splitOn_intercalate_flatMap _ hmap, List.flatMap_map,
    List.map_flatMap]
  rfl

theorem join_singleton (s : String) : join [s] = s := by
  rw [join, List.map_singleton, List.intercalate_singleton, String.ofList_toList]

theorem split_ne_nil (s : String) : split s ≠ [] := by
  intro h
  exact List.splitOnP_ne_nil _ _ (List.map_eq_nil_iff.mp h)

theorem split_of_not_mem {s : String} (h : '|' ∉ s.toList) : split s = [s] := by
  have hsplit : s.toList.splitOn '|' = [s.toList] := by
    have := List.splitOn_intercalate '|' (fun l hl => List.mem_singleton.mp hl ▸ h)
      (List.cons_ne_nil _ _)
    rwa [List.intercalate_singleton] at this
  rw [split, hsplit, List.map_singleton, String.ofList_toList]

end strings

section extraction

abbrev StringSet := SyncMap.Map String Unit

def addSourceIDsFromLabelMatcher (sourceIDs : StringSet) (labelMatcher : Matcher) : StringSet :=
  match labelMatcher.type with
  | .regexp =>
      (split labelMatcher.value).foldl (fun sourceIDs id => sourceIDs.insert id ()) sourceIDs
  | .equal => sourceIDs.insert labelMatcher.value ()
  | _ => sourceIDs

def addSourceIDsFromMatchers (sourceIDs : StringSet) (labelMatchers : List Matcher) : StringSet :=
  labelMatchers.foldl (fun sourceIDs labelMatcher =>
    if labelMatcher.name = "source_id" then addSourceIDsFromLabelMatcher sourceIDs labelMatcher
    else sourceIDs) sourceIDs

def visitSourceIDs (e : Expr) : StringSet := e.selectors.foldl addSourceIDsFromMatchers ∅

def extractSourceIds (parseExpr : String → Except String Expr)
    (order : SyncMap.RangeOrder String Unit) (query : String) : Except String (List String) := do
  let expr ← parseExpr query
  return (order.visit (visitSourceIDs expr).entries).map Sigma.fst

def requested (labelMatcher : Matcher) : List String :=
  if labelMatcher.name = "source_id" then
    match labelMatcher.type with
    | .regexp => split labelMatcher.value
    | .equal => [labelMatcher.value]
    | _ => []
  else []

variable {id : String}

theorem mem_insertAll (ids : List String) (sourceIDs : StringSet) :
    id ∈ ids.foldl (fun sourceIDs id => sourceIDs.insert id ()) sourceIDs ↔
      id ∈ sourceIDs ∨ id ∈ ids := by
  induction ids generalizing sourceIDs with
  | nil => simp
  | cons x ids ih =>
      rw [List.foldl_cons, ih, AList.mem_insert, List.mem_cons, or_assoc, or_left_comm]

theorem mem_addSourceIDs (sourceIDs : StringSet) (labelMatcher : Matcher) :
    id ∈ (if labelMatcher.name = "source_id" then addSourceIDsFromLabelMatcher sourceIDs
      labelMatcher else sourceIDs) ↔
      id ∈ sourceIDs ∨ id ∈ requested labelMatcher := by
  rw [requested, addSourceIDsFromLabelMatcher]
  split_ifs
  · cases labelMatcher.type with
    | equal =>
        dsimp only
        rw [AList.mem_insert, List.mem_singleton, or_comm]
    | regexp => exact mem_insertAll _ _
    | notEqual => simp
    | notRegexp => simp
  · simp

theorem mem_addSourceIDsFromMatchers (labelMatchers : List Matcher) (sourceIDs : StringSet) :
    id ∈ addSourceIDsFromMatchers sourceIDs labelMatchers ↔
      id ∈ sourceIDs ∨ ∃ labelMatcher ∈ labelMatchers, id ∈ requested labelMatcher := by
  induction labelMatchers generalizing sourceIDs with
  | nil => simp [addSourceIDsFromMatchers]
  | cons labelMatcher labelMatchers ih =>
      rw [addSourceIDsFromMatchers, List.foldl_cons, ← addSourceIDsFromMatchers, ih,
        mem_addSourceIDs, or_assoc, List.exists_mem_cons_iff]

theorem mem_visitSourceIDs (e : Expr) :
    id ∈ visitSourceIDs e ↔ ∃ labelMatcher ∈ e.selectors.flatten, id ∈ requested labelMatcher := by
  have hfold : ∀ (selectors : List (List Matcher)) (sourceIDs : StringSet),
      id ∈ selectors.foldl addSourceIDsFromMatchers sourceIDs ↔
        id ∈ sourceIDs ∨ ∃ labelMatcher ∈ selectors.flatten, id ∈ requested labelMatcher := by
    intro selectors
    induction selectors with
    | nil => simp
    | cons labelMatchers selectors ih =>
        intro sourceIDs
        rw [List.foldl_cons, ih, mem_addSourceIDsFromMatchers, List.flatten_cons, or_assoc]
        simp only [List.mem_append, or_and_right, exists_or]
  rw [visitSourceIDs, hfold]
  exact or_iff_right (AList.notMem_empty id)

theorem mem_extractSourceIds {parseExpr : String → Except String Expr}
    {order : SyncMap.RangeOrder String Unit} {query : String} {e : Expr}
    (hparse : parseExpr query = .ok e) {ids : List String}
    (hids : extractSourceIds parseExpr order query = .ok ids) :
    id ∈ ids ↔ id ∈ visitSourceIDs e := by
  rw [extractSourceIds, hparse] at hids
  cases hids
  rw [((order.perm _).map _).mem_iff]
  exact AList.mem_keys.symm

end extraction

section replacement

variable (sourceIdSets : GoMap (List String))

/-- `sourceIdSets[id]`, which is nil for a missing key. -/
def expansionsOf (id : String) : List String := (sourceIdSets.lookup id).getD []

def joined (labelMatcher : Matcher) (expansions : List String) : Matcher :=
  { labelMatcher with
    type := if 1 < expansions.length then .regexp else .equal
    value := join expansions }

def replaceSourceIdsInEqualMatcher (labelMatcher : Matcher) : Matcher :=
  match sourceIdSets.lookup labelMatcher.value with
  | some expansions => joined labelMatcher expansions
  | none => labelMatcher

def replaceSourceIdsInRegexpMatcher (labelMatcher : Matcher) : Matcher :=
  joined labelMatcher ((split labelMatcher.value).flatMap (expansionsOf sourceIdSets))

def replaceInMatcher (labelMatcher : Matcher) : Matcher :=
  if labelMatcher.name = "source_id" then
    match labelMatcher.type with
    | .equal => replaceSourceIdsInEqualMatcher sourceIdSets labelMatcher
    | .regexp => replaceSourceIdsInRegexpMatcher sourceIdSets labelMatcher
    | _ => labelMatcher
  else labelMatcher

def replaceInExpr (e : Expr) : Expr := e.mapMatchers (replaceInMatcher sourceIdSets)

def replaceSourceIdSets (parseExpr : String → Except String Expr) (print : Expr → String)
    (query : String) :
    Except String String := do
  let expr ← parseExpr query
  return print (replaceInExpr sourceIdSets expr)

variable {sourceIdSets} {labelMatcher : Matcher}

theorem replaceInMatcher_eq (hreq : requested labelMatcher ≠ [])
    (hsets : ∀ id ∈ requested labelMatcher, ∃ set, sourceIdSets.lookup id = some set) :
    replaceInMatcher sourceIdSets labelMatcher =
      joined labelMatcher ((requested labelMatcher).flatMap (expansionsOf sourceIdSets)) := by
  rw [requested] at hreq hsets ⊢
  rw [replaceInMatcher]
  split_ifs at hreq hsets ⊢ with hname
  · cases htype : labelMatcher.type with
    | equal =>
        rw [htype] at hsets
        obtain ⟨set, hset⟩ := hsets labelMatcher.value (List.mem_singleton_self _)
        dsimp only
        rw [replaceSourceIdsInEqualMatcher, hset, List.flatMap_cons, List.flatMap_nil,
          List.append_nil, expansionsOf, hset]
        rfl
    | regexp => rfl
    | notEqual =>
        rw [htype] at hreq
        exact absurd rfl hreq
    | notRegexp =>
        rw [htype] at hreq
        exact absurd rfl hreq
  · exact absurd rfl hreq

theorem requested_replaceInMatcher_of_nil (hreq : requested labelMatcher = []) :
    requested (replaceInMatcher sourceIdSets labelMatcher) = [] := by
  rw [requested] at hreq
  rw [replaceInMatcher]
  split_ifs at hreq ⊢ with hname
  · cases htype : labelMatcher.type with
    | equal =>
        rw [htype] at hreq
        cases hreq
    | regexp =>
        rw [htype] at hreq
        exact absurd hreq (split_ne_nil _)
    | notEqual =>
        dsimp only
        rw [requested, if_pos hname, htype]
    | notRegexp =>
        dsimp only
        rw [requested, if_pos hname, htype]
  · rw [requested, if_neg hname]

theorem requested_joined (hname : labelMatcher.name = "source_id") {expansions : List String}
    (hne : expansions ≠ []) :
    requested (joined labelMatcher expansions) =
      if 1 < expansions.length then expansions.flatMap split else expansions := by
  rw [requested, joined]
  dsimp only
  rw [if_pos hname]
  split_ifs with hlen
  · exact split_join hne
  · match expansions, hne, hlen with
    | [id], _, _ => rw [join_singleton]
    | _ :: _ :: _, _, hlen => exact absurd (by simp) hlen

end replacement

end LogCache.SourceIds
