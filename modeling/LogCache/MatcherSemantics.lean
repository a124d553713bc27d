import LogCache.Querier

namespace LogCache.MatcherSemantics

open Envelopes MapOrders Promql SourceIds ReadPath Traversal Querier

section selection

def IsTag (l : Matcher) : Prop := l.name ≠ "__name__" ∧ l.name ≠ "source_id"

def metricOf (ll : List Matcher) : String :=
  (ll.filter fun l => l.name = "__name__").getLast?.elim "" Matcher.value

theorem metricOf_concat (ll : List Matcher) (l : Matcher) :
    metricOf (ll ++ [l]) = if l.name = "__name__" then l.value else metricOf ll := by
  rw [metricOf, List.filter_append]
  split_ifs with hname
  · rw [List.filter_cons_of_pos (by simpa using hname), List.filter_nil, List.getLast?_concat]
    rfl
  · rw [List.filter_cons_of_neg (by simpa using hname), List.filter_nil, List.append_nil]
    rfl

theorem selectMatchers_concat (ll : List Matcher) (l : Matcher) :
    selectMatchers (ll ++ [l]) = selectMatcher (selectMatchers ll) l := by
  rw [selectMatchers, List.foldl_concat]
  rfl

theorem selectMatchers_metric (ll : List Matcher) : (selectMatchers ll).metric = metricOf ll := by
  induction ll using List.reverseRecOn with
  | nil => rfl
  | append_singleton ll l ih =>
      rw [selectMatchers_concat, metricOf_concat, selectMatcher]
      split_ifs
      · rfl
      · exact ih
      · exact ih

theorem mem_selectMatchers_sourceIDs (ll : List Matcher) {id : String} :
    id ∈ (selectMatchers ll).sourceIDs ↔ ∃ l ∈ ll, id ∈ requested l := by
  induction ll using List.reverseRecOn with
  | nil => simp [selectMatchers]
  | append_singleton ll l ih =>
      have hstep : (selectMatchers (ll ++ [l])).sourceIDs =
          if l.name = "source_id" then addSourceIDsFromLabelMatcher (selectMatchers ll).sourceIDs l
          else (selectMatchers ll).sourceIDs := by
        rw [selectMatchers_concat, selectMatcher]
        by_cases hname : l.name = "__name__"
        · rw [if_pos hname, if_neg (by rw [hname]; decide)]
        · rw [if_neg hname]
          split_ifs
          · rfl
          · rfl
      rw [hstep, mem_addSourceIDs, ih]
      simp only [List.mem_append, List.mem_singleton, or_and_right, exists_or, exists_eq_left]

theorem mem_selectMatchers_ls (ll : List Matcher) {label : Label} :
    label ∈ (selectMatchers ll).ls ↔ ∃ l ∈ ll, IsTag l ∧ label = ⟨l.name, l.value⟩ := by
  induction ll using List.reverseRecOn with
  | nil => simp [selectMatchers]
  | append_singleton ll l ih =>
      have hstep : label ∈ (selectMatchers (ll ++ [l])).ls ↔
          label ∈ (selectMatchers ll).ls ∨ IsTag l ∧ label = ⟨l.name, l.value⟩ := by
        rw [selectMatchers_concat, selectMatcher, IsTag]
        split_ifs with hname hsource
        · simp [hname]
        · simp [hsource]
        · simp [hname, hsource]
      rw [hstep, ih]
      simp only [List.mem_append, List.mem_singleton, or_and_right, exists_or, exists_eq_left]

theorem hasLabels_selectMatchers (ll : List Matcher) (tags : GoMap String) :
    hasLabels tags (selectMatchers ll).ls = true ↔ ∀ l ∈ ll, IsTag l →
      tags.lookup l.name = some l.value := by
  simp only [hasLabels, List.all_eq_true, decide_eq_true_eq, mem_selectMatchers_ls]
  constructor
  · intro h l hl htag
    exact h ⟨l.name, l.value⟩ ⟨l, hl, htag, rfl⟩
  · rintro h label ⟨l, hl, htag, rfl⟩
    exact h l hl htag

end selection

section metrics

def HasMetric (name : String) : Message → Prop
  | .counter name' _ _ => name' = name
  | .gauge metrics => name ∈ metrics
  | .timer name' _ _ => name' = name
  | .unset | .log _ _ | .event _ _ => False

theorem messageValue_isSome (order : MapOrder GaugeValue) (metric : String) (message : Message) :
    (messageValue order metric message).isSome = true ↔
      ∃ name, HasMetric name message ∧ sanitizeMetricName name = metric := by
  cases message with
  | counter name delta total =>
      rw [messageValue]
      split_ifs with h <;> simp [HasMetric, h]
  | timer name start stop =>
      rw [messageValue]
      split_ifs with h <;> simp [HasMetric, h]
  | gauge metrics =>
      simp only [messageValue, checkMapForSanitizedMetricName, Option.isSome_map, List.find?_isSome,
        decide_eq_true_eq, mem_visit, HasMetric]
      constructor
      · rintro ⟨p, hp, hname⟩
        exact ⟨p.1, Finmap.mem_of_lookup_eq_some hp, hname⟩
      · rintro ⟨name, hmem, hname⟩
        obtain ⟨value, hvalue⟩ := Finmap.mem_iff.mp hmem
        exact ⟨⟨name, value⟩, hvalue, hname⟩
  | unset => simp [messageValue, HasMetric]
  | log payload type => simp [messageValue, HasMetric]
  | event title body => simp [messageValue, HasMetric]

theorem contribution_isSome (q : LogCacheQuerier) (orders : Orders) (ll : List Matcher)
    (e : Envelope) :
    (contribution q orders (selectMatchers ll) e).isSome = true ↔
      (∀ l ∈ ll, IsTag l → e.tags.lookup l.name = some l.value) ∧
        ∃ name, HasMetric name e.message ∧ sanitizeMetricName name = metricOf ll := by
  rw [← hasLabels_selectMatchers, ← selectMatchers_metric, ← messageValue_isSome (orders.metrics e),
    contribution]
  split_ifs with h
  · rw [Option.isSome_map]
    exact (and_iff_right h).symm
  · exact ⟨fun hnone => absurd hnone Bool.false_ne_true, fun hboth => absurd hboth.1 h⟩

end metrics

section semantics

/-- `labels.Matcher.Matches`; `matchString` decides whether a text matches a
pattern that compiles. -/
def labelMatches (matchString : String → String → Bool) (l : Matcher) (s : String) : Bool :=
  match l.type with
  | .equal => decide (s = l.value)
  | .notEqual => decide (s ≠ l.value)
  | .regexp => matchString ("^(?:" ++ l.value ++ ")$") s
  | .notRegexp => !matchString ("^(?:" ++ l.value ++ ")$") s

/-- The labels that an envelope is exported with, for one of its metrics; an
absent label counts as the empty string. -/
def exportedLabel (e : Envelope) (name label : String) : String :=
  if label = "__name__" then sanitizeMetricName name else ((seriesTags e).lookup label).getD ""

variable (matchString : String → String → Bool) (ll : List Matcher)

def Satisfies (e : Envelope) : Prop :=
  ∃ name, HasMetric name e.message ∧ ∀ l ∈ ll,
    labelMatches matchString l (exportedLabel e name l.name) = true

/-- The label of a tag, which the instance ID replaces if there is one. -/
def tagLabel (instanceId : String) (tags : GoMap String) (label : String) : String :=
  if label = "instance_id" ∧ instanceId ≠ "" then instanceId else (tags.lookup label).getD ""

def SourceMatched (sourceId : String) : Prop :=
  ∀ l ∈ ll, l.name = "source_id" → labelMatches matchString l sourceId = true

def NameMatched (name : String) : Prop :=
  ∀ l ∈ ll, l.name = "__name__" → labelMatches matchString l (sanitizeMetricName name) = true

def TagsMatched (instanceId : String) (tags : GoMap String) : Prop :=
  ∀ l ∈ ll, IsTag l → labelMatches matchString l (tagLabel instanceId tags l.name) = true

def TagsSelected (tags : GoMap String) : Prop :=
  ∀ l ∈ ll, IsTag l → tags.lookup l.name = some l.value

theorem exportedLabel_tag (e : Envelope) (name : String) {l : Matcher} (htag : IsTag l) :
    exportedLabel e name l.name = tagLabel e.instanceId e.tags l.name := by
  rw [exportedLabel, if_neg htag.1, seriesTags, tagLabel]
  by_cases hinstance : e.instanceId = ""
  · rw [if_pos hinstance, if_neg (fun h => h.2 hinstance), Finmap.lookup_insert_of_ne _ htag.2]
  · rw [if_neg hinstance]
    by_cases hlabel : l.name = "instance_id"
    · rw [if_pos ⟨hlabel, hinstance⟩, hlabel, Finmap.lookup_insert]
      rfl
    · rw [if_neg (fun h => hlabel h.1), Finmap.lookup_insert_of_ne _ hlabel,
        Finmap.lookup_insert_of_ne _ htag.2]

theorem exportedLabel_source (e : Envelope) (name : String) :
    exportedLabel e name "source_id" = e.sourceId := by
  rw [exportedLabel, if_neg (by decide), seriesTags]
  by_cases hinstance : e.instanceId = ""
  · rw [if_pos hinstance, Finmap.lookup_insert]
    rfl
  · rw [if_neg hinstance, Finmap.lookup_insert_of_ne _ (by decide), Finmap.lookup_insert]
    rfl

theorem satisfies_iff (e : Envelope) :
    Satisfies matchString ll e ↔ SourceMatched matchString ll e.sourceId ∧
      TagsMatched matchString ll e.instanceId e.tags ∧
      ∃ name, HasMetric name e.message ∧ NameMatched matchString ll name := by
  constructor
  · rintro ⟨name, hmetric, h⟩
    refine ⟨?_, ?_, name, hmetric, ?_⟩
    · intro l hl hname
      have := h l hl
      rwa [hname, exportedLabel_source] at this
    · intro l hl htag
      have := h l hl
      rwa [exportedLabel_tag e name htag] at this
    · intro l hl hname
      have := h l hl
      rwa [hname, exportedLabel, if_pos rfl] at this
  · rintro ⟨hsource, htags, name, hmetric, hnames⟩
    refine ⟨name, hmetric, ?_⟩
    intro l hl
    by_cases hname : l.name = "__name__"
    · rw [hname, exportedLabel, if_pos rfl]
      exact hnames l hl hname
    · by_cases hid : l.name = "source_id"
      · rw [hid, exportedLabel_source]
        exact hsource l hl hid
      · rw [exportedLabel_tag e name ⟨hname, hid⟩]
        exact htags l hl ⟨hname, hid⟩

end semantics

end LogCache.MatcherSemantics
