import LogCache.PromqlPrinter
import LogCache.SourceIds

namespace LogCache.QueryConfinement

open Envelopes Promql PromqlPrinter SourceIds

section middleware

structure Oauth2ClientContext where
  isAdmin : Bool
  token : String

/-- What the middleware is built on. A nil translation map is `none`. -/
structure CFAuthMiddlewareProvider where
  oauth2Read : String → Except String Oauth2ClientContext
  isAuthorized : String → String → Bool
  getRelatedSourceIds : List String → String → Option (GoMap (List String))

structure Language where
  parseExpr : String → Except String Expr
  print : Expr → String

inductive Response
  | notFound
  | badRequest (status errorType error : String)
  | served (query : String)
deriving DecidableEq

namespace CFAuthMiddlewareProvider

variable (m : CFAuthMiddlewareProvider)

def authorizeSourceIds (sourceIds : List String) (c : Oauth2ClientContext) : List String :=
  sourceIds.filter fun sourceId => m.isAuthorized sourceId c.token

def sourceIdSet (c : Oauth2ClientContext) (related : GoMap (List String)) (sourceId : String) :
    List String :=
  if c.isAdmin then expansionsOf related sourceId ++ [sourceId]
  else m.authorizeSourceIds (expansionsOf related sourceId ++ [sourceId]) c

/-- The loop over the source IDs of the query; `none` is the 404 for an ID
with nothing authorized. -/
def expandSourceIds (c : Oauth2ClientContext) (related : GoMap (List String)) :
    List String → Option (GoMap (List String))
  | [] => some related
  | sourceId :: rest =>
      let set := m.sourceIdSet c related sourceId
      if c.isAdmin = false ∧ set = [] then none
      else expandSourceIds c (related.insert sourceId set) rest

def queryHandler (lang : Language) (order : SyncMap.RangeOrder String Unit)
    (authToken query : String) : Response :=
  if authToken = "" then .notFound
  else
    match extractSourceIds lang.parseExpr order query with
    | .error err => .badRequest "error" "bad_data" err
    | .ok [] => .badRequest "error" "bad_data" "query does not request any source_ids"
    | .ok sourceIds =>
        match m.oauth2Read authToken with
        | .error _ => .notFound
        | .ok c =>
            match m.getRelatedSourceIds sourceIds authToken with
            | none => .notFound
            | some related =>
                match m.expandSourceIds c related sourceIds with
                | none => .notFound
                | some sets =>
                    match replaceSourceIdSets sets lang.parseExpr lang.print query with
                    | .error _ => .notFound
                    | .ok modifiedQuery => .served modifiedQuery

end CFAuthMiddlewareProvider

end middleware

variable {m : CFAuthMiddlewareProvider} {c : Oauth2ClientContext}
    {related sets : GoMap (List String)}

theorem expandSourceIds_lookup (hadmin : c.isAdmin = false) {sourceIds : List String}
    (hnodup : sourceIds.Nodup) (h : m.expandSourceIds c related sourceIds = some sets) {id : String}
    (hid : id ∈ sourceIds) :
    sets.lookup id = some (m.sourceIdSet c related id) ∧ m.sourceIdSet c related id ≠ [] := by
  have hkeep : ∀ (sourceIds : List String) (related : GoMap (List String)),
      m.expandSourceIds c related sourceIds = some sets → id ∉ sourceIds →
        sets.lookup id = related.lookup id := by
    intro sourceIds
    induction sourceIds with
    | nil =>
        intro related h _
        cases h
        rfl
    | cons x sourceIds ih =>
        intro related h hnot
        rw [CFAuthMiddlewareProvider.expandSourceIds] at h
        split_ifs at h
        rw [ih _ h (List.not_mem_of_not_mem_cons hnot)]
        exact Finmap.lookup_insert_of_ne _ (List.ne_of_not_mem_cons hnot)
  induction sourceIds generalizing related with
  | nil => cases hid
  | cons x sourceIds ih =>
      obtain ⟨hx, hrest⟩ := List.nodup_cons.mp hnodup
      rw [CFAuthMiddlewareProvider.expandSourceIds] at h
      split_ifs at h with hempty
      by_cases heq : id = x
      · subst heq
        refine ⟨?_, fun hnil => hempty ⟨hadmin, hnil⟩⟩
        rw [hkeep _ _ h hx]
        exact Finmap.lookup_insert _
      · have hmem := (List.mem_cons.mp hid).resolve_left heq
        have hset : m.sourceIdSet c (related.insert x (m.sourceIdSet c related x)) id =
            m.sourceIdSet c related id := by
          simp only [CFAuthMiddlewareProvider.sourceIdSet, expansionsOf,
            Finmap.lookup_insert_of_ne _ heq]
        have := ih hrest h hmem
        rwa [hset] at this

/-- The authorized IDs that the handler puts in the place of a matcher's. -/
def expansion (m : CFAuthMiddlewareProvider) (c : Oauth2ClientContext)
    (related : GoMap (List String)) (labelMatcher : Matcher) : List String :=
  (requested labelMatcher).flatMap (m.sourceIdSet c related)

theorem isAuthorized_of_mem_expansion (hadmin : c.isAdmin = false) {labelMatcher : Matcher}
    {id : String} (hid : id ∈ expansion m c related labelMatcher) :
    m.isAuthorized id c.token = true := by
  obtain ⟨x, _, hx⟩ := List.mem_flatMap.mp hid
  rw [CFAuthMiddlewareProvider.sourceIdSet, hadmin, if_neg Bool.false_ne_true] at hx
  exact (List.mem_filter.mp hx).2

theorem requested_replaced {labelMatcher : Matcher}
    (hsets : ∀ id ∈ requested labelMatcher, sets.lookup id = some (m.sourceIdSet c related id) ∧
      m.sourceIdSet c related id ≠ []) :
    requested (replaceInMatcher sets labelMatcher) =
      if 1 < (expansion m c related labelMatcher).length
        then (expansion m c related labelMatcher).flatMap split
      else expansion m c related labelMatcher := by
  by_cases hreq : requested labelMatcher = []
  · rw [requested_replaceInMatcher_of_nil hreq, expansion, hreq]
    rfl
  · have hexpansion : (requested labelMatcher).flatMap (expansionsOf sets) =
        expansion m c related labelMatcher := by
      apply List.flatMap_congr
      intro id hid
      rw [expansionsOf, (hsets id hid).1]
      rfl
    have hne : expansion m c related labelMatcher ≠ [] := by
      obtain ⟨id, hid⟩ := List.exists_mem_of_ne_nil _ hreq
      obtain ⟨x, hx⟩ := List.exists_mem_of_ne_nil _ (hsets id hid).2
      exact List.ne_nil_of_mem (List.mem_flatMap.mpr ⟨id, hid, hx⟩)
    have hname : labelMatcher.name = "source_id" := by
      by_contra hname
      exact hreq (if_neg hname)
    rw [replaceInMatcher_eq hreq fun id hid => ⟨_, (hsets id hid).1⟩, hexpansion,
      requested_joined hname hne]

theorem served_eq {lang : Language} {order : SyncMap.RangeOrder String Unit}
    {authToken query served : String} {e : Expr} {sourceIds : List String}
    (hparse : lang.parseExpr query = .ok e) (hread : m.oauth2Read authToken = .ok c)
    (hids : extractSourceIds lang.parseExpr order query = .ok sourceIds)
    (hrelated : m.getRelatedSourceIds sourceIds authToken = some related)
    (hserved : m.queryHandler lang order authToken query = .served served) :
    ∃ sets, m.expandSourceIds c related sourceIds = some sets ∧
      served = lang.print (replaceInExpr sets e) := by
  rw [CFAuthMiddlewareProvider.queryHandler] at hserved
  split_ifs at hserved
  rw [hids] at hserved
  cases sourceIds with
  | nil => cases hserved
  | cons id rest =>
      dsimp only at hserved
      rw [hread] at hserved
      dsimp only at hserved
      rw [hrelated] at hserved
      dsimp only at hserved
      cases hexpand : m.expandSourceIds c related (id :: rest) with
      | none =>
          rw [hexpand] at hserved
          cases hserved
      | some sets =>
          rw [hexpand] at hserved
          dsimp only at hserved
          rw [replaceSourceIdSets, hparse] at hserved
          cases hserved
          exact ⟨sets, rfl, rfl⟩

theorem extractSourceIds_nodup {parseExpr : String → Except String Expr}
    {order : SyncMap.RangeOrder String Unit} {query : String} {ids : List String}
    (hids : extractSourceIds parseExpr order query = .ok ids) : ids.Nodup := by
  rw [extractSourceIds] at hids
  cases hparse : parseExpr query with
  | error err =>
      rw [hparse] at hids
      cases hids
  | ok e =>
      rw [hparse] at hids
      cases hids
      exact ((order.perm _).map _).nodup_iff.mpr (visitSourceIDs e).nodupKeys

theorem forall_read_iff {lang : Language} {order : SyncMap.RangeOrder String Unit}
    {authToken query served : String} {e : Expr} {sourceIds : List String}
    (hparse : lang.parseExpr query = .ok e)
    (hround : ∀ sets, m.expandSourceIds c related sourceIds = some sets →
      lang.parseExpr (lang.print (replaceInExpr sets e)) = .ok (replaceInExpr sets e))
    (hread : m.oauth2Read authToken = .ok c) (hadmin : c.isAdmin = false)
    (hids : extractSourceIds lang.parseExpr order query = .ok sourceIds)
    (hrelated : m.getRelatedSourceIds sourceIds authToken = some related)
    (hserved : m.queryHandler lang order authToken query = .served served) (P : String → Prop) :
    (∀ e', lang.parseExpr served = .ok e' → ∀ selector ∈ e'.selectors,
      ∀ id ∈ addSourceIDsFromMatchers ∅ selector, P id) ↔
      ∀ labelMatcher ∈ e.selectors.flatten,
        ∀ id ∈ if 1 < (expansion m c related labelMatcher).length then
            (expansion m c related labelMatcher).flatMap split
              else expansion m c related labelMatcher, P id := by
  obtain ⟨sets, hexpand, rfl⟩ := served_eq hparse hread hids hrelated hserved
  have hreplaced : ∀ labelMatcher ∈ e.selectors.flatten,
      requested (replaceInMatcher sets labelMatcher) =
      if 1 < (expansion m c related labelMatcher).length
        then (expansion m c related labelMatcher).flatMap split
      else expansion m c related labelMatcher := by
    intro labelMatcher hmatcher
    apply requested_replaced
    intro id hid
    apply expandSourceIds_lookup hadmin (extractSourceIds_nodup hids) hexpand
    exact (mem_extractSourceIds hparse hids).mpr
      ((mem_visitSourceIDs e).mpr ⟨labelMatcher, hmatcher, hid⟩)
  rw [hround sets hexpand]
  simp only [Except.ok.injEq, forall_eq', replaceInExpr, selectors_mapMatchers, List.forall_mem_map,
    mem_addSourceIDsFromMatchers, AList.notMem_empty, false_or]
  constructor
  · intro h labelMatcher hmatcher id hid
    obtain ⟨selector, hselector, hmem⟩ := List.mem_flatten.mp hmatcher
    apply h selector hselector id
    refine ⟨_, List.mem_map_of_mem hmem, ?_⟩
    rwa [hreplaced labelMatcher hmatcher]
  · rintro h selector hselector id ⟨_, hmap, hid⟩
    obtain ⟨labelMatcher, hmem, rfl⟩ := List.mem_map.mp hmap
    have hmatcher := List.mem_flatten.mpr ⟨selector, hselector, hmem⟩
    rw [hreplaced labelMatcher hmatcher] at hid
    exact h labelMatcher hmatcher id hid

/-- A served query reads authorized IDs only, exactly if every authorized ID
that is joined with others has authorized pieces only. -/
theorem confined_iff_pieces_authorized (m : CFAuthMiddlewareProvider) (lang : Language)
    (order : SyncMap.RangeOrder String Unit) (authToken query served : String) (e : Expr)
    (c : Oauth2ClientContext) (sourceIds : List String) (related : GoMap (List String))
    (hparse : lang.parseExpr query = .ok e)
    (hround : ∀ sets, m.expandSourceIds c related sourceIds = some sets →
      lang.parseExpr (lang.print (replaceInExpr sets e)) = .ok (replaceInExpr sets e))
    (hread : m.oauth2Read authToken = .ok c) (hadmin : c.isAdmin = false)
    (hids : extractSourceIds lang.parseExpr order query = .ok sourceIds)
    (hrelated : m.getRelatedSourceIds sourceIds authToken = some related)
    (hserved : m.queryHandler lang order authToken query = .served served) :
    (∀ e', lang.parseExpr served = .ok e' → ∀ selector ∈ e'.selectors,
      ∀ id ∈ addSourceIDsFromMatchers ∅ selector,
        m.isAuthorized id c.token = true) ↔
      ∀ labelMatcher ∈ e.selectors.flatten, 1 < (expansion m c related labelMatcher).length →
        ∀ id ∈ expansion m c related labelMatcher, ∀ piece ∈ split id,
          m.isAuthorized piece c.token = true := by
  rw [forall_read_iff hparse hround hread hadmin hids hrelated hserved]
  refine forall₂_congr fun labelMatcher _ => ⟨?_, ?_⟩
  · intro h hlen id hid piece hpiece
    apply h
    rw [if_pos hlen]
    exact List.mem_flatMap.mpr ⟨id, hid, hpiece⟩
  · intro h id hid
    split_ifs at hid with hlen
    · obtain ⟨x, hx, hpiece⟩ := List.mem_flatMap.mp hid
      exact h hlen x hx id hpiece
    · exact isAuthorized_of_mem_expansion hadmin hid

theorem confined_of_not_mem {lang : Language} {order : SyncMap.RangeOrder String Unit}
    {authToken query served : String} {e : Expr} {sourceIds : List String}
    (hparse : lang.parseExpr query = .ok e)
    (hround : ∀ sets, m.expandSourceIds c related sourceIds = some sets →
      lang.parseExpr (lang.print (replaceInExpr sets e)) = .ok (replaceInExpr sets e))
    (hread : m.oauth2Read authToken = .ok c) (hadmin : c.isAdmin = false)
    (hids : extractSourceIds lang.parseExpr order query = .ok sourceIds)
    (hrelated : m.getRelatedSourceIds sourceIds authToken = some related)
    (hserved : m.queryHandler lang order authToken query = .served served)
    (hplain : ∀ id, m.isAuthorized id c.token = true → '|' ∉ id.toList) :
    ∀ e', lang.parseExpr served = .ok e' → ∀ selector ∈ e'.selectors,
      ∀ id ∈ addSourceIDsFromMatchers ∅ selector, m.isAuthorized id c.token = true := by
  rw [forall_read_iff hparse hround hread hadmin hids hrelated hserved]
  intro labelMatcher _ id hid
  split_ifs at hid
  · obtain ⟨x, hx, hpiece⟩ := List.mem_flatMap.mp hid
    have hauthorized := isAuthorized_of_mem_expansion hadmin hx
    rw [split_of_not_mem (hplain x hauthorized), List.mem_singleton] at hpiece
    rwa [hpiece]
  · exact isAuthorized_of_mem_expansion hadmin hid

section oneSelector

def printable (c : Char) : Bool := decide (' ' ≤ c) && decide (c ≤ '~')

def parseValue (cs : List Char) : Option String :=
  match cs.reverse with
  | '"' :: cs =>
      if cs.all fun c => printable c && c != '"' && c != '\\' then some (String.ofList cs.reverse)
      else none
  | _ => none

def identifier (c : Char) : Bool := c.isAlphanum || c == '_'

def parseMatcher (cs : List Char) : Option Matcher :=
  let name := String.ofList (cs.takeWhile identifier)
  match cs.dropWhile identifier with
  | '=' :: '~' :: '"' :: cs => (parseValue cs).map fun value => ⟨.regexp, name, value⟩
  | '!' :: '~' :: '"' :: cs => (parseValue cs).map fun value => ⟨.notRegexp, name, value⟩
  | '!' :: '=' :: '"' :: cs => (parseValue cs).map fun value => ⟨.notEqual, name, value⟩
  | '=' :: '"' :: cs => (parseValue cs).map fun value => ⟨.equal, name, value⟩
  | _ => none

def vectorSelector (name : String) (labelMatchers : List Matcher) : Expr :=
  .vectorSelector name 0
    (if name = "" then labelMatchers else labelMatchers ++ [⟨.equal, "__name__", name⟩])

def parseSelector (query : String) : Option Expr :=
  match query.toList.dropWhile identifier with
  | '\x7b' :: cs =>
      match cs.reverse with
      | '\x7d' :: cs =>
          ((cs.reverse.splitOn ',').mapM parseMatcher).map
            (vectorSelector (String.ofList (query.toList.takeWhile identifier)))
      | _ => none
  | _ => none

/-- The part of the language that is a single selector, with its matchers in
braces. -/
def oneSelector : Language where
  parseExpr query := (parseSelector query).elim (.error "parse error") .ok
  print := exprString ⟨printable, fun _ => "NaN"⟩

def caller (app : String) (authorized : List String) : CFAuthMiddlewareProvider where
  oauth2Read _ := .ok ⟨false, "token"⟩
  isAuthorized sourceId _ := sourceId ∈ authorized
  getRelatedSourceIds _ _ := some ((∅ : GoMap (List String)).insert app ["x"])

theorem confined_two_ids :
    (caller "a" ["a", "x"]).queryHandler oneSelector .id "token" "m\x7bsource_id=\"a\"\x7d" =
        .served "m\x7bsource_id=~\"x|a\"\x7d" ∧
      ∀ e', oneSelector.parseExpr "m\x7bsource_id=~\"x|a\"\x7d" = .ok e' →
        ∀ selector ∈ e'.selectors, ∀ id ∈ addSourceIDsFromMatchers ∅ selector,
          (caller "a" ["a", "x"]).isAuthorized id "token" = true := by
  have hserved : (caller "a" ["a", "x"]).queryHandler oneSelector .id "token"
      "m\x7bsource_id=\"a\"\x7d" = .served "m\x7bsource_id=~\"x|a\"\x7d" := by
    decide +kernel
  have hround : ∀ sets, (caller "a" ["a", "x"]).expandSourceIds ⟨false, "token"⟩
      ((∅ : GoMap (List String)).insert "a" ["x"]) ["a"] = some sets →
      oneSelector.parseExpr (oneSelector.print
          (replaceInExpr sets (vectorSelector "m" [⟨.equal, "source_id", "a"⟩]))) =
        .ok (replaceInExpr sets (vectorSelector "m" [⟨.equal, "source_id", "a"⟩])) := by
    intro sets hsets
    cases hsets
    rfl
  refine ⟨hserved, (confined_iff_pieces_authorized _ oneSelector .id "token"
    "m\x7bsource_id=\"a\"\x7d" "m\x7bsource_id=~\"x|a\"\x7d"
    (vectorSelector "m" [⟨.equal, "source_id", "a"⟩]) ⟨false, "token"⟩
      ["a"] _ rfl hround rfl rfl rfl rfl
    hserved).mpr ?_⟩
  decide +kernel

/-- The caller may read `x` and `a|b`, and gets `a` and `b`. -/
theorem not_confined :
    (caller "a|b" ["a|b", "x"]).queryHandler oneSelector .id "token" "m\x7bsource_id=\"a|b\"\x7d" =
        .served "m\x7bsource_id=~\"x|a|b\"\x7d" ∧
      oneSelector.parseExpr "m\x7bsource_id=~\"x|a|b\"\x7d" =
        .ok (vectorSelector "m" [⟨.regexp, "source_id", "x|a|b"⟩]) ∧
      (∀ id ∈ ["x", "a", "b"], id ∈ addSourceIDsFromMatchers ∅ [⟨.regexp, "source_id", "x|a|b"⟩]) ∧
      (caller "a|b" ["a|b", "x"]).isAuthorized "a" "token" = false := by
  refine ⟨by decide +kernel, rfl, by decide +kernel, by decide +kernel⟩

end oneSelector

end LogCache.QueryConfinement
