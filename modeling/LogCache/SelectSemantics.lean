import LogCache.MatcherSemantics

namespace LogCache.SelectSemantics

open Envelopes Promql SourceIds ReadPath Traversal Querier MatcherSemantics

variable {matchString : String → String → Bool} {ll : List Matcher}

section conditions

variable (matchString ll)

structure Exact : Prop where
  sourceIDs : ∀ l ∈ ll, ∀ id ∈ requested l, SourceMatched matchString ll id
  metric : ∀ name, NameMatched matchString ll name ↔ sanitizeMetricName name = metricOf ll
  instanceId : ∀ l ∈ ll, l.name ≠ "instance_id"
  tags : ∀ l ∈ ll, IsTag l → l.value ≠ "" ∧
    ∀ v, (∀ l' ∈ ll, l'.name = l.name → labelMatches matchString l' v = true) ↔ v = l.value

def NothingSelected : Prop :=
  (∀ name, sanitizeMetricName name ≠ metricOf ll) ∨
    ∃ l ∈ ll, ∃ l' ∈ ll, IsTag l ∧ l'.name = l.name ∧ l'.value ≠ l.value

def NothingMatched : Prop :=
  (∀ l ∈ ll, ∀ id ∈ requested l, ¬SourceMatched matchString ll id) ∨
    (∀ name, ¬NameMatched matchString ll name) ∨
    ∃ l ∈ ll, IsTag l ∧ ∀ v, ∃ l' ∈ ll, l'.name = l.name ∧ labelMatches matchString l' v = false

def Agree : Prop :=
  ∀ l ∈ ll, ∀ id ∈ requested l, ∀ instanceId tags name,
    TagsSelected ll tags ∧ sanitizeMetricName name = metricOf ll ↔
      SourceMatched matchString ll id ∧ TagsMatched matchString ll instanceId tags ∧
        NameMatched matchString ll name

end conditions

section sufficient

theorem isTag_of_name {l l' : Matcher} (htag : IsTag l) (hname : l'.name = l.name) : IsTag l' := by
  rw [IsTag, hname]
  exact htag

theorem tagLabel_of_ne {label : String} (h : label ≠ "instance_id") (instanceId : String)
    (tags : GoMap String) :
    tagLabel instanceId tags label = (tags.lookup label).getD "" :=
  if_neg fun h' => h h'.1

theorem agree_of_exact (h : Exact matchString ll) : Agree matchString ll := by
  intro l hl id hid instanceId tags name
  rw [← h.metric name]
  constructor
  · rintro ⟨hselected, hname⟩
    refine ⟨h.sourceIDs l hl id hid, ?_, hname⟩
    intro l' hl' htag
    rw [tagLabel_of_ne (h.instanceId l' hl'), hselected l' hl' htag]
    exact ((h.tags l' hl' htag).2 l'.value).mpr rfl l' hl' rfl
  · rintro ⟨_, hmatched, hname⟩
    refine ⟨?_, hname⟩
    intro l' hl' htag
    obtain ⟨hne, hvalues⟩ := h.tags l' hl' htag
    have hvalue : (tags.lookup l'.name).getD "" = l'.value := by
      apply (hvalues _).mp
      intro l'' hl'' hsame
      have := hmatched l'' hl'' (isTag_of_name htag hsame)
      rwa [tagLabel_of_ne (h.instanceId l'' hl''), hsame] at this
    cases hlookup : tags.lookup l'.name with
    | none =>
        rw [hlookup] at hvalue
        exact absurd hvalue.symm hne
    | some v =>
        rw [hlookup] at hvalue
        exact congrArg some hvalue

theorem not_selected (h : NothingSelected ll) {tags : GoMap String} {name : String}
    (hselected : TagsSelected ll tags) (hname : sanitizeMetricName name = metricOf ll) : False := by
  rcases h with hnames | ⟨l, hl, l', hl', htag, hsame, hne⟩
  · exact hnames name hname
  · have hlookup := hselected l' hl' (isTag_of_name htag hsame)
    rw [hsame, hselected l hl htag] at hlookup
    exact hne (Option.some.inj hlookup).symm

theorem not_matched (h : NothingMatched matchString ll) {l : Matcher} (hl : l ∈ ll) {id : String}
    (hid : id ∈ requested l) {instanceId name : String} {tags : GoMap String}
    (hsource : SourceMatched matchString ll id) (htags : TagsMatched matchString ll instanceId tags)
    (hname : NameMatched matchString ll name) : False := by
  rcases h with hids | hnames | ⟨l', _, htag, hvalues⟩
  · exact hids l hl id hid hsource
  · exact hnames name hname
  · obtain ⟨l'', hl'', hsame, hfalse⟩ := hvalues (tagLabel instanceId tags l'.name)
    have htrue := htags l'' hl'' (isTag_of_name htag hsame)
    rw [hsame, hfalse] at htrue
    exact Bool.false_ne_true htrue

theorem agree_of_nothing (hselected : NothingSelected ll)
    (hmatched : NothingMatched matchString ll) :
    Agree matchString ll := by
  intro l hl id hid instanceId tags name
  constructor
  · rintro ⟨htags, hname⟩
    exact (not_selected hselected htags hname).elim
  · rintro ⟨hsource, htags, hname⟩
    exact (not_matched hmatched hl hid hsource htags hname).elim

end sufficient

section necessary

theorem exists_tags (ll : List Matcher) (f : String → String) :
    ∃ tags : GoMap String, ∀ l ∈ ll, tags.lookup l.name = some (f l.name) := by
  induction ll with
  | nil => exact ⟨∅, fun l hl => absurd hl List.not_mem_nil⟩
  | cons l ll ih =>
      obtain ⟨tags, htags⟩ := ih
      refine ⟨tags.insert l.name (f l.name), ?_⟩
      intro l' hl'
      by_cases hsame : l'.name = l.name
      · rw [hsame, Finmap.lookup_insert]
      · rw [Finmap.lookup_insert_of_ne _ hsame]
        exact htags l' ((List.mem_cons.mp hl').resolve_left fun h =>
          hsame (congrArg Matcher.name h))

theorem exists_selected (h : ¬NothingSelected ll) :
    ∃ tags name, TagsSelected ll tags ∧ sanitizeMetricName name = metricOf ll := by
  rw [NothingSelected, not_or] at h
  obtain ⟨hname, hvalues⟩ := h
  push Not at hname hvalues
  obtain ⟨name, hname⟩ := hname
  have hchoice : ∀ label, ∃ v, ∀ l ∈ ll, IsTag l → l.name = label → l.value = v := by
    intro label
    by_cases hex : ∃ l ∈ ll, IsTag l ∧ l.name = label
    · obtain ⟨l, hl, htag, hlabel⟩ := hex
      exact ⟨l.value, fun l' hl' _ hlabel' => hvalues l hl l' hl' htag (hlabel'.trans hlabel.symm)⟩
    · exact ⟨"", fun l hl htag hlabel => absurd ⟨l, hl, htag, hlabel⟩ hex⟩
  choose f hf using hchoice
  obtain ⟨tags, htags⟩ := exists_tags ll f
  refine ⟨tags, name, ?_, hname⟩
  intro l hl htag
  rw [htags l hl, hf l.name l hl htag rfl]

theorem exists_matched (h : ¬NothingMatched matchString ll) :
    ∃ l ∈ ll, ∃ id ∈ requested l, ∃ tags name, SourceMatched matchString ll id ∧
      TagsMatched matchString ll "" tags ∧ NameMatched matchString ll name := by
  rw [NothingMatched, not_or, not_or] at h
  obtain ⟨hid, hname, hvalues⟩ := h
  push Not at hid hname hvalues
  obtain ⟨l, hl, id, hid, hsource⟩ := hid
  obtain ⟨name, hname⟩ := hname
  have hchoice : ∀ label, ∃ v, ∀ l ∈ ll, IsTag l → l.name = label →
      labelMatches matchString l v = true := by
    intro label
    by_cases hex : ∃ l ∈ ll, IsTag l ∧ l.name = label
    · obtain ⟨l, hl, htag, rfl⟩ := hex
      obtain ⟨v, hv⟩ := hvalues l hl htag
      exact ⟨v, fun l' hl' _ hlabel => by simpa using hv l' hl' hlabel⟩
    · exact ⟨"", fun l hl htag hlabel => absurd ⟨l, hl, htag, hlabel⟩ hex⟩
  choose f hf using hchoice
  obtain ⟨tags, htags⟩ := exists_tags ll f
  refine ⟨l, hl, id, hid, tags, name, hsource, ?_, hname⟩
  intro l' hl' htag
  rw [tagLabel, if_neg fun h => h.2 rfl, htags l' hl']
  exact hf l'.name l' hl' htag rfl

theorem tagLabel_erase_instance (instanceId : String) (tags : GoMap String) (label : String) :
    tagLabel (tagLabel instanceId tags "instance_id") (tags.erase "instance_id") label =
      tagLabel instanceId tags label := by
  by_cases hlabel : label = "instance_id"
  · subst hlabel
    rw [tagLabel, Finmap.lookup_erase]
    split_ifs with h
    · rfl
    · exact (not_not.mp fun hne => h ⟨rfl, hne⟩).symm
  · rw [tagLabel_of_ne hlabel, tagLabel_of_ne hlabel, Finmap.lookup_erase_ne hlabel]

theorem not_selected_erase {l : Matcher} (hl : l ∈ ll) (htag : IsTag l) (tags : GoMap String) :
    ¬TagsSelected ll (tags.erase l.name) := by
  intro h
  have := h l hl htag
  rw [Finmap.lookup_erase] at this
  cases this

structure Accepted (matchString : String → String → Bool) (ll : List Matcher) (id : String)
    (tags : GoMap String) (name : String) : Prop where
  requested : ∃ l ∈ ll, id ∈ requested l
  selected : TagsSelected ll tags
  metric : sanitizeMetricName name = metricOf ll
  source : SourceMatched matchString ll id
  matched : TagsMatched matchString ll "" tags
  names : NameMatched matchString ll name

variable {id name : String} {tags : GoMap String}

theorem selected_of_matched (h : Agree matchString ll) (hacc : Accepted matchString ll id tags name)
    {instanceId : String} {tags' : GoMap String}
    (hmatched : TagsMatched matchString ll instanceId tags') :
    TagsSelected ll tags' := by
  obtain ⟨l, hl, hid⟩ := hacc.requested
  exact ((h l hl id hid instanceId tags' name).mpr ⟨hacc.source, hmatched, hacc.names⟩).1

theorem name_ne_instance (h : Agree matchString ll) (hacc : Accepted matchString ll id tags name)
    {l : Matcher} (hl : l ∈ ll) : l.name ≠ "instance_id" := by
  intro hlabel
  have htag : IsTag l := by
    rw [IsTag, hlabel]
    decide
  apply not_selected_erase hl htag tags
  have hmatched : TagsMatched matchString ll (tagLabel "" tags "instance_id")
      (tags.erase l.name) := by
    intro l' hl' htag'
    rw [hlabel, tagLabel_erase_instance]
    exact hacc.matched l' hl' htag'
  exact selected_of_matched h hacc hmatched

theorem labelMatches_value (h : Agree matchString ll) (hacc : Accepted matchString ll id tags name)
    {l : Matcher} (hl : l ∈ ll) (htag : IsTag l) : labelMatches matchString l l.value = true := by
  have := hacc.matched l hl htag
  rwa [tagLabel_of_ne (name_ne_instance h hacc hl), hacc.selected l hl htag] at this

theorem value_eq_of_name (hacc : Accepted matchString ll id tags name) {l l' : Matcher}
    (hl : l ∈ ll) (htag : IsTag l) (hl' : l' ∈ ll) (hlabel : l'.name = l.name) :
    l'.value = l.value := by
  have := hacc.selected l' hl' (isTag_of_name htag hlabel)
  rw [hlabel, hacc.selected l hl htag] at this
  exact (Option.some.inj this).symm

theorem matched_of_label (h : Agree matchString ll) (hacc : Accepted matchString ll id tags name)
    {label : String} {tags' : GoMap String}
    (hother : ∀ label', label' ≠ label → tags'.lookup label' = tags.lookup label')
    (hlabel : ∀ l ∈ ll, l.name = label → labelMatches matchString l
    ((tags'.lookup label).getD "") = true) :
    TagsMatched matchString ll "" tags' := by
  intro l hl htag
  rw [tagLabel_of_ne (name_ne_instance h hacc hl)]
  by_cases hname : l.name = label
  · rw [hname]
    exact hlabel l hl hname
  · rw [hother l.name hname, hacc.selected l hl htag]
    exact labelMatches_value h hacc hl htag

theorem value_ne_empty (h : Agree matchString ll) (hacc : Accepted matchString ll id tags name)
    {l : Matcher} (hl : l ∈ ll) (htag : IsTag l) : l.value ≠ "" := by
  intro hempty
  apply not_selected_erase hl htag tags
  apply selected_of_matched h hacc
  apply matched_of_label h hacc (fun label' hne => Finmap.lookup_erase_ne hne)
  intro l' hl' hlabel
  have := labelMatches_value h hacc hl' (isTag_of_name htag hlabel)
  rw [value_eq_of_name hacc hl htag hl' hlabel, hempty] at this
  rw [Finmap.lookup_erase]
  exact this

theorem labelMatches_iff (h : Agree matchString ll) (hacc : Accepted matchString ll id tags name)
    {l : Matcher} (hl : l ∈ ll) (htag : IsTag l) (v : String) :
    (∀ l' ∈ ll, l'.name = l.name → labelMatches matchString l' v = true) ↔ v = l.value := by
  constructor
  · intro hmatches
    have hinserted : TagsMatched matchString ll "" (tags.insert l.name v) := by
      apply matched_of_label h hacc (fun label' hne => Finmap.lookup_insert_of_ne _ hne)
      intro l' hl' hlabel
      rw [Finmap.lookup_insert]
      exact hmatches l' hl' hlabel
    have := selected_of_matched h hacc hinserted l hl htag
    rw [Finmap.lookup_insert] at this
    exact Option.some.inj this
  · rintro rfl l' hl' hlabel
    have := labelMatches_value h hacc hl' (isTag_of_name htag hlabel)
    rwa [value_eq_of_name hacc hl htag hl' hlabel] at this

theorem exact_of_agree (h : Agree matchString ll) (hacc : Accepted matchString ll id tags name) :
    Exact matchString ll := by
  refine ⟨?_, ?_, fun l hl => name_ne_instance h hacc hl, ?_⟩
  · intro l hl id' hid'
    exact ((h l hl id' hid' "" tags name).mp ⟨hacc.selected, hacc.metric⟩).1
  · intro name'
    obtain ⟨l, hl, hid⟩ := hacc.requested
    constructor
    · intro hnames
      exact ((h l hl id hid "" tags name').mpr ⟨hacc.source, hacc.matched, hnames⟩).2
    · intro heq
      exact ((h l hl id hid "" tags name').mp ⟨hacc.selected, heq⟩).2.2
  · intro l hl htag
    exact ⟨value_ne_empty h hacc hl htag, labelMatches_iff h hacc hl htag⟩

theorem agree_iff (hread : ∃ l ∈ ll, requested l ≠ []) :
    Agree matchString ll ↔ Exact matchString ll ∨ NothingSelected ll ∧
      NothingMatched matchString ll := by
  constructor
  · intro h
    by_cases hselected : NothingSelected ll
    · by_cases hmatched : NothingMatched matchString ll
      · exact Or.inr ⟨hselected, hmatched⟩
      · obtain ⟨l, hl, id, hid, tags, name, hsource, htags, hnames⟩ := exists_matched hmatched
        obtain ⟨hselected, hmetric⟩ := (h l hl id hid "" tags name).mpr ⟨hsource, htags, hnames⟩
        exact Or.inl (exact_of_agree h ⟨⟨l, hl, hid⟩, hselected, hmetric, hsource, htags, hnames⟩)
    · obtain ⟨tags, name, hselected, hmetric⟩ := exists_selected hselected
      obtain ⟨l, hl, hne⟩ := hread
      obtain ⟨id, hid⟩ := List.exists_mem_of_ne_nil _ hne
      obtain ⟨hsource, htags, hnames⟩ := (h l hl id hid "" tags name).mp ⟨hselected, hmetric⟩
      exact Or.inl (exact_of_agree h ⟨⟨l, hl, hid⟩, hselected, hmetric, hsource, htags, hnames⟩)
  · rintro (hexact | ⟨hselected, hmatched⟩)
    · exact agree_of_exact hexact
    · exact agree_of_nothing hselected hmatched

end necessary

end LogCache.SelectSemantics
