import LogCache.CapiClient
import LogCache.Runs

namespace LogCache.TokenCache

open CapiClient Runs

section calls

variable {c : CAPIClient} {env : Environment} {now : Int} {sourceId clientToken : String}

theorem hasResource_spec (c : CAPIClient) (env : Environment) (path sourceId clientToken : String) :
    (∀ x ∈ (c.hasResource env path sourceId clientToken).1,
      x.request = ⟨c.addr ++ path ++ sourceId, clientToken⟩) ∧
      ((c.hasResource env path sourceId clientToken).2 = true ↔
        ∃ x ∈ (c.hasResource env path sourceId clientToken).1, x.status = some 200) := by
  rw [CAPIClient.hasResource]
  dsimp only
  split_ifs with hparses
  · simp
  · simp

theorem isAuthorized_hit {time : Int}
    (h : c.tokenCache.lookup (clientToken ++ sourceId) = some time) :
    c.isAuthorized env now sourceId clientToken = (true, [], c) := by
  rw [CAPIClient.isAuthorized, h]

theorem isAuthorized_miss (h : c.tokenCache.lookup (clientToken ++ sourceId) = none)
    (env : Environment) (now : Int) (remembered : Bool) :
    ∃ authorized exchanges, c.isAuthorized env now sourceId clientToken =
        (authorized, exchanges,
          if authorized then
            { c with tokenCache := c.tokenCache.insert (clientToken ++ sourceId) now }
          else c) ∧
      (authorized = true ↔ Granted c.addr ⟨⟨sourceId, clientToken⟩, authorized, exchanges,
        remembered⟩) := by
  obtain ⟨happs, hasApp⟩ := hasResource_spec c env "/v3/apps/" sourceId clientToken
  obtain ⟨hservices, hasService⟩ :=
    hasResource_spec c env "/v2/service_instances/" sourceId clientToken
  rw [CAPIClient.isAuthorized, h]
  dsimp only
  split_ifs with happ hservice
  · obtain ⟨x, hx, hstatus⟩ := hasApp.mp happ
    refine ⟨true, _, rfl, iff_of_true rfl ⟨x, hx, hstatus, ?_⟩⟩
    rw [happs x hx]
    exact ⟨rfl, Or.inl rfl⟩
  · obtain ⟨x, hx, hstatus⟩ := hasService.mp hservice
    refine ⟨true, _, rfl, iff_of_true rfl ⟨x, List.mem_append_right _ hx, hstatus, ?_⟩⟩
    rw [hservices x hx]
    exact ⟨rfl, Or.inr rfl⟩
  · refine ⟨false, _, rfl, iff_of_false Bool.false_ne_true ?_⟩
    rintro ⟨x, hx, hstatus, _⟩
    rcases List.mem_append.mp hx with hx | hx
    · exact happ (hasApp.mpr ⟨x, hx, hstatus⟩)
    · exact hservice (hasService.mpr ⟨x, hx, hstatus⟩)

theorem mem_of_mem_pruneTokens {times : String → Int} {order : SyncMap.RangeOrder String Int}
    {key : String} (h : key ∈ (c.pruneTokens times order).tokenCache) : key ∈ c.tokenCache := by
  have hfold : ∀ (xs : List (Σ _ : String, Int)) (cache : SyncMap.Map String Int),
      key ∈ xs.foldl (fun cache x =>
        if c.cacheExpirationInterval ≤ times x.1 - x.2 then cache.erase x.1 else cache) cache →
          key ∈ cache := by
    intro xs
    induction xs with
    | nil => exact fun _ h => h
    | cons x xs ih =>
        intro cache hmem
        have hnext := ih _ hmem
        dsimp only at hnext
        split_ifs at hnext
        · exact (AList.mem_erase.mp hnext).2
        · exact hnext
  exact hfold _ _ h

end calls

/-- The cache has an entry for each live grant, and no two of them share a
key. -/
structure Faithful (s : Session) : Prop where
  entries : ∀ key, key ∈ s.client.tokenCache ↔ ∃ g ∈ s.live, g.key = key
  keys : (s.live.map Grant.key).Nodup

def AllJustified (s : Session) : Prop := ∀ o ∈ s.outcomes, Justified s.client.addr o

instance (s : Session) : Decidable (AllJustified s) := inferInstanceAs (Decidable (∀ _ ∈ _, _))

def DistinctKey (s : Session) : Event → Prop
  | .isAuthorized sourceId clientToken _ _ =>
      ∀ g ∈ s.live, g.key = clientToken ++ sourceId → g = ⟨sourceId, clientToken⟩
  | .pruneTokens _ _ => True

instance (s : Session) : (event : Event) → Decidable (DistinctKey s event)
  | .isAuthorized _ _ _ _ => inferInstanceAs (Decidable (∀ _ ∈ _, _ → _))
  | .pruneTokens _ _ => inferInstanceAs (Decidable True)

variable {s s' : Session}

section step

variable {sourceId clientToken : String} {env : Environment} {now : Int}

theorem step_hit {time : Int}
    (hl : s.client.tokenCache.lookup (clientToken ++ sourceId) = some time) :
    step s (.isAuthorized sourceId clientToken env now) = .ok ⟨s.client, s.live,
      ⟨⟨sourceId, clientToken⟩, true, [], decide (⟨sourceId, clientToken⟩ ∈ s.live)⟩ ::
        s.outcomes⟩ := by
  have hnot : ¬ Granted s.client.addr
      ⟨⟨sourceId, clientToken⟩, true, [], decide (⟨sourceId, clientToken⟩ ∈ s.live)⟩ := by
    rintro ⟨x, hx, _⟩
    cases hx
  rw [step, isAuthorized_hit hl]
  dsimp only
  rw [if_neg hnot]

theorem step_miss (hl : s.client.tokenCache.lookup (clientToken ++ sourceId) = none)
    (env : Environment) (now : Int) :
    ∃ authorized exchanges, step s (.isAuthorized sourceId clientToken env now) = .ok
        ⟨if authorized then
            { s.client with tokenCache := s.client.tokenCache.insert (clientToken ++ sourceId) now }
              else s.client,
          if authorized then ⟨sourceId, clientToken⟩ :: s.live else s.live,
          ⟨⟨sourceId, clientToken⟩, authorized, exchanges,
            decide (⟨sourceId, clientToken⟩ ∈ s.live)⟩ :: s.outcomes⟩ ∧
      Justified s.client.addr
        ⟨⟨sourceId, clientToken⟩, authorized, exchanges,
          decide (⟨sourceId, clientToken⟩ ∈ s.live)⟩ := by
  obtain ⟨authorized, exchanges, hcall, hgranted⟩ :=
    isAuthorized_miss hl env now (decide (⟨sourceId, clientToken⟩ ∈ s.live))
  refine ⟨authorized, exchanges, ?_, fun hauth => Or.inl (hgranted.mp hauth)⟩
  rw [step, hcall]
  dsimp only
  rw [if_congr hgranted.symm rfl rfl]

theorem hit_allJustified (hj : AllJustified s) (hlive : ⟨sourceId, clientToken⟩ ∈ s.live) :
    AllJustified ⟨s.client, s.live,
      ⟨⟨sourceId, clientToken⟩, true, [], decide (⟨sourceId, clientToken⟩ ∈ s.live)⟩ ::
        s.outcomes⟩ := by
  intro o ho
  rcases List.mem_cons.mp ho with rfl | ho
  · exact fun _ => Or.inr (decide_eq_true hlive)
  · exact hj o ho

theorem grant_faithful (hf : Faithful s)
    (hl : s.client.tokenCache.lookup (clientToken ++ sourceId) = none) (outcomes : List Outcome) :
    Faithful
      ⟨{ s.client with tokenCache := s.client.tokenCache.insert (clientToken ++ sourceId) now },
        ⟨sourceId, clientToken⟩ :: s.live, outcomes⟩ := by
  constructor
  · intro key
    dsimp only
    rw [AList.mem_insert, hf.entries key]
    constructor
    · rintro (rfl | ⟨g, hg, hkey⟩)
      · exact ⟨_, List.mem_cons_self, rfl⟩
      · exact ⟨g, List.mem_cons_of_mem _ hg, hkey⟩
    · rintro ⟨g, hg, hkey⟩
      rcases List.mem_cons.mp hg with rfl | hg
      · exact Or.inl hkey.symm
      · exact Or.inr ⟨g, hg, hkey⟩
  · refine List.nodup_cons.mpr ⟨fun hmem => ?_, hf.keys⟩
    obtain ⟨g, hg, hkey⟩ := List.mem_map.mp hmem
    obtain ⟨time, htime⟩ := SyncMap.mem_iff_lookup.mp ((hf.entries _).mpr ⟨g, hg, hkey⟩)
    rw [show Grant.key ⟨sourceId, clientToken⟩ = clientToken ++ sourceId from rfl, hl] at htime
    cases htime

theorem prune_faithful (hf : Faithful s) (times : String → Int)
    (order : SyncMap.RangeOrder String Int) :
    Faithful ⟨s.client.pruneTokens times order,
      s.live.filter (·.key ∈ (s.client.pruneTokens times order).tokenCache), s.outcomes⟩ := by
  constructor
  · intro key
    constructor
    · intro hkey
      obtain ⟨g, hg, rfl⟩ := (hf.entries key).mp (mem_of_mem_pruneTokens hkey)
      exact ⟨g, List.mem_filter.mpr ⟨hg, decide_eq_true hkey⟩, rfl⟩
    · rintro ⟨g, hg, rfl⟩
      exact of_decide_eq_true (List.mem_filter.mp hg).2
  · exact hf.keys.sublist (List.filter_sublist.map _)

theorem step_faithful {event : Event} (hs : Faithful s ∧ AllJustified s)
    (hkey : DistinctKey s event) :
    ∃ s', step s event = .ok s' ∧ Faithful s' ∧ AllJustified s' := by
  obtain ⟨hf, hj⟩ := hs
  cases event with
  | isAuthorized sourceId clientToken env now =>
      cases hl : s.client.tokenCache.lookup (clientToken ++ sourceId) with
      | some time =>
          obtain ⟨g, hg, hgkey⟩ := (hf.entries _).mp (SyncMap.mem_iff_lookup.mpr ⟨time, hl⟩)
          obtain rfl := hkey g hg hgkey
          exact ⟨_, step_hit hl, ⟨hf.entries, hf.keys⟩, hit_allJustified hj hg⟩
      | none =>
          obtain ⟨authorized, exchanges, hstep, hjust⟩ := step_miss hl env now
          refine ⟨_, hstep, ?_, ?_⟩
          · cases authorized with
            | true => exact grant_faithful hf hl _
            | false => exact ⟨hf.entries, hf.keys⟩
          · intro o ho
            have hall : Justified s.client.addr o := by
              rcases List.mem_cons.mp ho with rfl | ho
              · exact hjust
              · exact hj o ho
            cases authorized <;> exact hall
  | pruneTokens times order => exact ⟨_, rfl, prune_faithful hf times order, hj⟩

theorem step_unjustified {event : Event} (hf : Faithful s) (hkey : ¬ DistinctKey s event)
    (hs : step s event = .ok s') : ¬ AllJustified s' := by
  cases event with
  | isAuthorized sourceId clientToken env now =>
      rw [DistinctKey] at hkey
      push Not at hkey
      obtain ⟨g, hg, hgkey, hne⟩ := hkey
      obtain ⟨time, hl⟩ := SyncMap.mem_iff_lookup.mp ((hf.entries _).mpr ⟨g, hg, hgkey⟩)
      rw [step_hit hl] at hs
      cases hs
      intro hj
      rcases hj _ List.mem_cons_self rfl with ⟨x, hx, _⟩ | hremembered
      · cases hx
      · have hlive := of_decide_eq_true hremembered
        exact hne (List.inj_on_of_nodup_map hf.keys hg hlive hgkey)
  | pruneTokens times order => exact absurd trivial hkey

end step

theorem opened_faithful (addr : String) (interval : Int) :
    Faithful (opened addr interval) ∧ AllJustified (opened addr interval) := by
  refine ⟨⟨fun key => ?_, List.nodup_nil⟩, nofun⟩
  exact iff_of_false (AList.notMem_empty key) fun ⟨_, hg, _⟩ => nomatch hg

/-- Every answer of a run is justified exactly if no call has the key of
another pair's live grant. -/
theorem justified_iff_distinct_keys (addr : String) (interval : Int) (events : List Event) :
    (∀ before, before <+: events → ∃ s, run step (opened addr interval) before = .ok s ∧
      AllJustified s) ↔
      Along step DistinctKey (opened addr interval) events :=
  prefixes_iff_along (fun _ hs => hs.2) (fun _ _ hs hkey => step_faithful hs hkey)
    (fun _ _ _ hs hkey h => step_unjustified hs.1 hkey h) (opened_faithful addr interval) events

def grantsFirst : Environment where
  parses _ := true
  respond r := if r = ⟨"capi/v3/apps/c", "ab"⟩ then some 200 else some 404

/-- Token `ab` is granted source `c`; then token `a` gets source `bc`. -/
theorem shared_key_unjustified :
    ∃ s, run step (opened "capi" 60)
        [.isAuthorized "c" "ab" grantsFirst 0, .isAuthorized "bc" "a" grantsFirst 1] = .ok s ∧
      s.outcomes.map Outcome.authorized = [true, true] ∧ ¬ AllJustified s := by
  apply exists_of_ends
  decide +kernel

end LogCache.TokenCache
