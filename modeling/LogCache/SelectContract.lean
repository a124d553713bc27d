import LogCache.SelectSemantics

namespace LogCache.SelectContract

open Envelopes Promql SourceIds ReadPath Querier MatcherSemantics SelectSemantics

/-- The reader answers each request of `Select`, with envelopes of the source
that the request names. -/
def Answers (q : LogCacheQuerier) (ll : List Matcher) (batch : String → List Envelope) : Prop :=
  ∀ sourceID ∈ (selectMatchers ll).sourceIDs,
    q.dataReader (request q sourceID) = .ok (batch sourceID) ∧
    ∀ e ∈ batch sourceID, e.sourceId = sourceID

/-- `Select` returns a point for each envelope that comes through its loop, and
these are the envelopes that satisfy the matchers. -/
def Honours (matchString : String → String → Bool) (ll : List Matcher) : Prop :=
  ∀ (q : LogCacheQuerier) (orders : Orders) (batch : String → List Envelope), Answers q ll batch →
    ∃ set, select q orders ll = .ok set ∧
      (set.flatMap (·.points)).Perm ((((selectMatchers ll).sourceIDs.entries.flatMap fun p =>
        batch p.1).filterMap
        (contribution q orders (selectMatchers ll))).map (·.2)) ∧
      ∀ sourceID ∈ (selectMatchers ll).sourceIDs, ∀ e ∈ batch sourceID,
        (contribution q orders (selectMatchers ll) e).isSome = true ↔ Satisfies matchString ll e

variable {matchString : String → String → Bool} {ll : List Matcher}

theorem requested_ne_nil
    (hsource : ∃ l ∈ ll, l.name = "source_id" ∧ (l.type = .equal ∨ l.type = .regexp)) :
    ∃ l ∈ ll, requested l ≠ [] := by
  obtain ⟨l, hl, hname, htype⟩ := hsource
  refine ⟨l, hl, ?_⟩
  rw [requested, if_pos hname]
  rcases htype with htype | htype
  · rw [htype]
    exact List.cons_ne_nil _ _
  · rw [htype]
    exact split_ne_nil _

theorem entries_ne_nil (hread : ∃ l ∈ ll, requested l ≠ []) :
    (selectMatchers ll).sourceIDs.entries ≠ [] := by
  obtain ⟨l, hl, hne⟩ := hread
  obtain ⟨id, hid⟩ := List.exists_mem_of_ne_nil _ hne
  have hmem := (mem_selectMatchers_sourceIDs ll).mpr ⟨l, hl, hid⟩
  intro hnil
  rw [AList.mem_keys, AList.keys, hnil] at hmem
  cases hmem

theorem contribution_iff_satisfies (h : Agree matchString ll) (q : LogCacheQuerier)
    (orders : Orders) {e : Envelope} (hid : e.sourceId ∈ (selectMatchers ll).sourceIDs) :
    (contribution q orders (selectMatchers ll) e).isSome = true ↔ Satisfies matchString ll e := by
  obtain ⟨l, hl, hid⟩ := (mem_selectMatchers_sourceIDs ll).mp hid
  have hagree := h l hl e.sourceId hid e.instanceId e.tags
  rw [contribution_isSome, satisfies_iff]
  constructor
  · rintro ⟨htags, name, hmetric, hname⟩
    obtain ⟨hsource, hmatched, hnames⟩ := (hagree name).mp ⟨htags, hname⟩
    exact ⟨hsource, hmatched, name, hmetric, hnames⟩
  · rintro ⟨hsource, hmatched, name, hmetric, hnames⟩
    obtain ⟨htags, hname⟩ := (hagree name).mpr ⟨hsource, hmatched, hnames⟩
    exact ⟨htags, name, hmetric, hname⟩

def single (e : Envelope) : LogCacheQuerier where
  start := 0
  stop := 0
  interval := 1000000000
  dataReader req := .ok (if req.sourceId = e.sourceId then [e] else [])

theorem single_answers (e : Envelope) (ll : List Matcher) :
    Answers (single e) ll fun sourceID => if sourceID = e.sourceId then [e] else [] := by
  intro sourceID _
  refine ⟨rfl, ?_⟩
  intro e' he'
  dsimp only at he'
  split_ifs at he' with hsource
  · rw [List.mem_singleton.mp he', hsource]
  · cases he'

theorem agree_of_honours (h : Honours matchString ll) : Agree matchString ll := by
  intro l hl id hid instanceId tags name
  let e : Envelope := ⟨0, id, instanceId, ∅, tags, .counter name 0 0⟩
  have hmem : id ∈ (selectMatchers ll).sourceIDs :=
    (mem_selectMatchers_sourceIDs ll).mpr ⟨l, hl, hid⟩
  obtain ⟨_, _, _, hcontribution⟩ := h (single e) Orders.any _ (single_answers e ll)
  have hiff := hcontribution id hmem e (by rw [if_pos rfl]; exact List.mem_singleton_self e)
  rw [contribution_isSome, satisfies_iff] at hiff
  simpa only [HasMetric, exists_eq_left', e, TagsSelected] using hiff

/-- `Select` honours the matchers for every reader exactly if each of its tests
accepts what the matchers accept, or nothing is accepted by either. -/
theorem honours_iff_exact (matchString : String → String → Bool) (ll : List Matcher)
    (hsource : ∃ l ∈ ll, l.name = "source_id" ∧ (l.type = .equal ∨ l.type = .regexp)) :
    Honours matchString ll ↔ Exact matchString ll ∨ NothingSelected ll ∧
      NothingMatched matchString ll := by
  have hread := requested_ne_nil hsource
  rw [← agree_iff hread]
  constructor
  · exact agree_of_honours
  · intro h q orders batch hanswers
    obtain ⟨set, hselect, hpoints⟩ := @select_points q orders ll batch (entries_ne_nil hread)
      fun sourceID hsourceID => (hanswers sourceID hsourceID).1
    refine ⟨set, hselect, hpoints, ?_⟩
    intro sourceID hsourceID e he
    apply contribution_iff_satisfies h
    rwa [(hanswers sourceID hsourceID).2 e he]

section counters

def plainMatch (pattern s : String) : Bool := decide (pattern = "^(?:" ++ s ++ ")$")

def matchers (type : MatchType) : List Matcher :=
  [⟨.equal, "__name__", "m"⟩, ⟨.equal, "source_id", "a"⟩, ⟨type, "foo", "x"⟩]

def counter (foo : String) : Envelope :=
  ⟨0, "a", "", ∅, (∅ : GoMap String).insert "foo" foo, .counter "m" 1 1⟩

theorem honours_equality : Honours plainMatch (matchers .equal) := by
  refine (honours_iff_exact plainMatch (matchers .equal)
    ⟨⟨.equal, "source_id", "a"⟩, by decide, rfl, Or.inl rfl⟩).mpr
    (Or.inl ⟨?_, ?_, ?_, ?_⟩)
  · unfold SourceMatched
    decide +kernel
  · intro name
    simp [NameMatched, matchers, labelMatches, metricOf]
  · decide
  · simp [IsTag, matchers, labelMatches]

/-- With `foo!="x"`, the counter that satisfies the matchers is left out, and the
one that does not is returned. -/
theorem inequality_not_honoured :
    (select (single (counter "y")) Orders.any (matchers .notEqual) = .ok [] ∧
      Satisfies plainMatch (matchers .notEqual) (counter "y")) ∧
    (select (single (counter "x")) Orders.any (matchers .notEqual)).map
      (List.map (·.points.length)) = .ok [1] ∧
      ¬Satisfies plainMatch (matchers .notEqual) (counter "x") := by
  refine ⟨⟨rfl, "m", rfl, by decide +kernel⟩, rfl, ?_⟩
  rintro ⟨name, _, h⟩
  have hfoo := h ⟨.notEqual, "foo", "x"⟩ (by decide)
  rw [exportedLabel_tag (counter "x") name ⟨by decide, by decide⟩] at hfoo
  revert hfoo
  decide +kernel

end counters

end LogCache.SelectContract
