import LogCache.EnvelopeStore
import LogCache.MapOrders
import LogCache.Runs

namespace LogCache.MetaCache

open Envelopes MapOrders EnvelopeStore Runs

section proxy

structure MetaRequest where
  localOnly : Bool

abbrev MetaResponse := GoMap MetaInfo

structure Cached where
  duration : Int
  timestamp : Int
  metaResp : MetaResponse

def Cached.expired (now : Int) (c : Cached) : Bool := decide (c.timestamp + c.duration < now)

/-- What a cache still answers with; a nil cache is expired. -/
def fresh (now : Int) (cache : Option Cached) : Option Cached :=
  cache.filter fun c => !c.expired now

/-- `EgressReverseProxy`, as far as `Meta` reads and writes it, with the number
of its clients in their place. -/
structure EgressReverseProxy where
  clients : Nat
  localIdx : Nat
  metaCacheDuration : Int
  localMetaCache : Option Cached
  remoteMetaCache : Option Cached

def newEgressReverseProxy (clients localIdx : Nat) (metaCacheDuration : Int) : EgressReverseProxy :=
  ⟨clients, localIdx, metaCacheDuration, none, none⟩

/-- A call of `Meta`: its argument, the clock when the cache is looked at and
when an answer is put into it, what each client replies to a request, and the
order of the loops over the replies. -/
structure Call where
  request : MetaRequest
  now : Int
  done : Int
  reply : Nat → MetaRequest → Except String MetaResponse
  order : MapOrder MetaInfo

inductive Panic
  | indexOutOfRange

variable (e : EgressReverseProxy) (c : Call)

def localMeta : Except Panic (EgressReverseProxy × Except String MetaResponse) :=
  match fresh c.now e.localMetaCache with
  | some cache => .ok (e, .ok cache.metaResp)
  | none =>
      if e.localIdx < e.clients then
        match c.reply e.localIdx c.request with
        | .error err => .ok (e, .error err)
        | .ok metaInfo =>
            .ok ({ e with localMetaCache := some ⟨e.metaCacheDuration, c.done, metaInfo⟩ },
              .ok metaInfo)
      else .error .indexOutOfRange

def visitClient (acc : MetaResponse × List String) (i : Nat) : MetaResponse × List String :=
  match c.reply i ⟨true⟩ with
  | .error err => (acc.1, acc.2 ++ [err])
  | .ok resp => (insertAll acc.1 (c.order.visit resp), acc.2)

def remoteMeta : Except Panic (EgressReverseProxy × Except String MetaResponse) :=
  match fresh c.now e.remoteMetaCache with
  | some cache => .ok (e, .ok cache.metaResp)
  | none =>
      let (result, errs) := (List.range e.clients).foldl (visitClient c) (∅, [])
      if errs.length = e.clients then .ok (e, .error "failed to read meta data from remote node")
      else .ok ({ e with remoteMetaCache := some ⟨e.metaCacheDuration, c.done, result⟩ },
        .ok result)

def getMeta : Except Panic (EgressReverseProxy × Except String MetaResponse) :=
  if c.request.localOnly then localMeta e c else remoteMeta e c

end proxy

section fetches

structure Fetch where
  call : Call
  result : Except String MetaResponse

/-- What the client with the highest index reports about a source, of those
that have something to report. -/
def reported (c : Call) (clients : List Nat) (sourceID : String) : Option MetaInfo :=
  clients.reverse.findSome? fun i => (c.reply i ⟨true⟩).toOption.bind fun resp =>
    resp.lookup sourceID

/-- The answer is the one of the local client, or the union of the answers of
those clients that have one, later clients first. -/
def Genuine (clients localIdx : Nat) (f : Fetch) : Prop :=
  if f.call.request.localOnly then f.result = f.call.reply localIdx ⟨true⟩
  else
    ((∃ err, f.result = .error err) ↔ ∀ i < clients, ∃ err, f.call.reply i ⟨true⟩ = .error err) ∧
      ∀ resp, f.result = .ok resp → ∀ sourceID,
        resp.lookup sourceID = reported f.call (List.range clients) sourceID

variable (c : Call)

theorem lookup_foldl_visitClient (clients : List Nat) (acc : MetaResponse × List String)
    (sourceID : String) :
    (clients.foldl (visitClient c) acc).1.lookup sourceID =
      (reported c clients sourceID).or (acc.1.lookup sourceID) := by
  induction clients generalizing acc with
  | nil => rfl
  | cons i clients ih =>
      rw [List.foldl_cons, ih, reported, reported, List.reverse_cons, List.findSome?_append,
        Option.or_assoc, visitClient]
      congr 1
      cases hreply : c.reply i ⟨true⟩ with
      | error err => simp [hreply, Except.toOption]
      | ok resp => simp [hreply, Except.toOption, lookup_insertAll_visit]

def failed (i : Nat) : Bool := (c.reply i ⟨true⟩).toOption.isNone

theorem failed_iff (i : Nat) : failed c i = true ↔ ∃ err, c.reply i ⟨true⟩ = .error err := by
  rw [failed]
  cases c.reply i ⟨true⟩ with
  | error err => simp [Except.toOption]
  | ok resp => simp [Except.toOption]

theorem length_foldl_visitClient (clients : List Nat) (acc : MetaResponse × List String) :
    (clients.foldl (visitClient c) acc).2.length = acc.2.length + clients.countP (failed c) := by
  induction clients generalizing acc with
  | nil => rfl
  | cons i clients ih =>
      rw [List.foldl_cons, ih, visitClient, List.countP_cons, failed]
      cases c.reply i ⟨true⟩ with
      | error err => simp [Except.toOption]; omega
      | ok resp => simp [Except.toOption]

theorem all_failed_iff (clients : Nat) :
    ((List.range clients).foldl (visitClient c) (∅, [])).2.length = clients ↔
      ∀ i < clients, ∃ err, c.reply i ⟨true⟩ = .error err := by
  rw [length_foldl_visitClient, List.length_nil, Nat.zero_add]
  have hcount := List.countP_eq_length (p := failed c) (l := List.range clients)
  rw [List.length_range] at hcount
  simp only [hcount, List.mem_range, failed_iff]

end fetches

section step

namespace EgressReverseProxy

def cacheFor (e : EgressReverseProxy) (localOnly : Bool) : Option Cached :=
  if localOnly then e.localMetaCache else e.remoteMetaCache

def store (e : EgressReverseProxy) (localOnly : Bool) (cache : Cached) : EgressReverseProxy :=
  if localOnly then { e with localMetaCache := some cache }
  else { e with remoteMetaCache := some cache }

theorem cacheFor_store (e : EgressReverseProxy) (localOnly localOnly' : Bool) (cache : Cached) :
    (e.store localOnly cache).cacheFor localOnly' = if localOnly' = localOnly then some cache
      else e.cacheFor localOnly' := by
  cases localOnly <;> cases localOnly' <;> rfl

/-- The proxy after the clients have answered: an error is not stored. -/
def keep (e : EgressReverseProxy) (c : Call) : Except String MetaResponse → EgressReverseProxy
  | .ok resp => e.store c.request.localOnly ⟨e.metaCacheDuration, c.done, resp⟩
  | .error _ => e

theorem keep_static (e : EgressReverseProxy) (c : Call) (answer : Except String MetaResponse) :
    (e.keep c answer).clients = e.clients ∧ (e.keep c answer).localIdx = e.localIdx ∧
      (e.keep c answer).metaCacheDuration = e.metaCacheDuration := by
  cases answer with
  | error err => exact ⟨rfl, rfl, rfl⟩
  | ok resp =>
      rw [keep, store]
      split_ifs <;> exact ⟨rfl, rfl, rfl⟩

end EgressReverseProxy

variable {e e' : EgressReverseProxy} {c : Call} {answer : Except String MetaResponse}

/-- What a call does that does not find a fresh answer: the clients are asked,
and only an answer is kept. -/
structure Asked (e : EgressReverseProxy) (c : Call) (e' : EgressReverseProxy)
    (answer : Except String MetaResponse) :
    Prop where
  stale : fresh c.now (e.cacheFor c.request.localOnly) = none
  genuine : Genuine e.clients e.localIdx ⟨c, answer⟩
  kept : ∀ resp, answer = .ok resp →
    e' = e.store c.request.localOnly ⟨e.metaCacheDuration, c.done, resp⟩
  unchanged : ∀ err, answer = .error err → e' = e

theorem asked_keep (hstale : fresh c.now (e.cacheFor c.request.localOnly) = none)
    (hgenuine : Genuine e.clients e.localIdx ⟨c, answer⟩) : Asked e c (e.keep c answer) answer := by
  refine ⟨hstale, hgenuine, ?_, ?_⟩
  · rintro resp rfl
    rfl
  · rintro err rfl
    rfl

theorem Asked.eq_keep (h : Asked e c e' answer) : e' = e.keep c answer := by
  cases answer with
  | ok resp => exact h.kept resp rfl
  | error err => exact h.unchanged err rfl

theorem localMeta_of_stale (hlocal : c.request.localOnly = true)
    (hstale : fresh c.now e.localMetaCache = none) (h : localMeta e c = .ok (e', answer)) :
    e' = e.keep c answer ∧ Genuine e.clients e.localIdx ⟨c, answer⟩ := by
  have hrequest : c.request = ⟨true⟩ := congrArg MetaRequest.mk hlocal
  rw [Genuine, if_pos hlocal, ← hrequest]
  simp only [localMeta, hstale] at h
  split_ifs at h
  cases hreply : c.reply e.localIdx c.request with
  | error err =>
      rw [hreply] at h
      cases h
      exact ⟨rfl, rfl⟩
  | ok metaInfo =>
      rw [hreply] at h
      cases h
      refine ⟨?_, rfl⟩
      rw [EgressReverseProxy.keep, hlocal]
      rfl

theorem remoteMeta_of_stale (hremote : c.request.localOnly = false)
    (hstale : fresh c.now e.remoteMetaCache = none) (h : remoteMeta e c = .ok (e', answer)) :
    e' = e.keep c answer ∧ Genuine e.clients e.localIdx ⟨c, answer⟩ := by
  have hfailed := all_failed_iff c e.clients
  rw [Genuine, if_neg (by simp [hremote])]
  simp only [remoteMeta, hstale] at h
  split_ifs at h with hall
  · cases h
    exact ⟨rfl, iff_of_true ⟨_, rfl⟩ (hfailed.mp hall), by simp⟩
  · cases h
    refine ⟨?_, iff_of_false (by simp) fun h => hall (hfailed.mpr h), fun resp hresp sourceID => ?_⟩
    · rw [EgressReverseProxy.keep, hremote]
      rfl
    · cases hresp
      rw [lookup_foldl_visitClient]
      simp

theorem getMeta_cases (h : getMeta e c = .ok (e', answer)) :
    (∃ cache, fresh c.now (e.cacheFor c.request.localOnly) = some cache ∧ e' = e ∧
      answer = .ok cache.metaResp) ∨
      Asked e c e' answer := by
  rw [getMeta] at h
  cases hfresh : fresh c.now (e.cacheFor c.request.localOnly) with
  | some cache =>
      refine Or.inl ⟨cache, rfl, ?_⟩
      split_ifs at h with hlocal
      · rw [EgressReverseProxy.cacheFor, if_pos hlocal] at hfresh
        rw [localMeta, hfresh] at h
        cases h
        exact ⟨rfl, rfl⟩
      · rw [EgressReverseProxy.cacheFor, if_neg hlocal] at hfresh
        rw [remoteMeta, hfresh] at h
        cases h
        exact ⟨rfl, rfl⟩
  | none =>
      have hasked : e' = e.keep c answer ∧ Genuine e.clients e.localIdx ⟨c, answer⟩ := by
        split_ifs at h with hlocal
        · rw [EgressReverseProxy.cacheFor, if_pos hlocal] at hfresh
          exact localMeta_of_stale hlocal hfresh h
        · rw [EgressReverseProxy.cacheFor, if_neg hlocal] at hfresh
          exact remoteMeta_of_stale (Bool.eq_false_iff.mpr hlocal) hfresh h
      obtain ⟨rfl, hgenuine⟩ := hasked
      exact Or.inr (asked_keep hfresh hgenuine)

theorem getMeta_ok (h : e.localIdx < e.clients) (c : Call) :
    ∃ e' answer, getMeta e c = .ok (e', answer) := by
  rw [getMeta, localMeta, remoteMeta]
  split_ifs
  · cases fresh c.now e.localMetaCache with
    | some cache => exact ⟨_, _, rfl⟩
    | none => cases c.reply e.localIdx c.request <;> exact ⟨_, _, rfl⟩
  · cases fresh c.now e.remoteMetaCache with
    | some cache => exact ⟨_, _, rfl⟩
    | none =>
        dsimp only
        split_ifs <;> exact ⟨_, _, rfl⟩

end step

section history

structure History where
  proxy : EgressReverseProxy
  fetches : List Fetch

def started (clients localIdx : Nat) (metaCacheDuration : Int) : History :=
  ⟨newEgressReverseProxy clients localIdx metaCacheDuration, []⟩

def record (h : History) (c : Call) : Except Panic History := do
  let (e, answer) ← getMeta h.proxy c
  let fetches := if (fresh c.now (h.proxy.cacheFor c.request.localOnly)).isSome then []
      else [⟨c, answer⟩]
  return ⟨e, h.fetches ++ fetches⟩

def Latest (fetches : List Fetch) (localOnly : Bool) (f : Fetch) : Prop :=
  ∃ before after, fetches = before ++ f :: after ∧ f.call.request.localOnly = localOnly ∧
    ∀ g ∈ after, g.call.request.localOnly = localOnly → ∃ err, g.result = .error err

theorem latest_concat (fetches : List Fetch) (f : Fetch) :
    Latest (fetches ++ [f]) f.call.request.localOnly f :=
  ⟨fetches, [], rfl, rfl, by simp⟩

theorem Latest.concat {fetches : List Fetch} {localOnly : Bool} {f g : Fetch}
    (h : Latest fetches localOnly f)
    (hg : g.call.request.localOnly = localOnly → ∃ err, g.result = .error err) :
    Latest (fetches ++ [g]) localOnly f := by
  obtain ⟨before, after, rfl, hkind, hafter⟩ := h
  refine ⟨before, after ++ [g], by simp, hkind, ?_⟩
  intro g' hg'
  rcases List.mem_append.mp hg' with hmem | hmem
  · exact hafter g' hmem
  · rw [List.mem_singleton.mp hmem]
    exact hg

/-- A cache holds the result of the last successful fetch of its kind, with the
time at which it was stored. -/
structure Backed (clients localIdx : Nat) (metaCacheDuration : Int) (h : History) : Prop where
  clients_eq : h.proxy.clients = clients
  localIdx_eq : h.proxy.localIdx = localIdx
  duration_eq : h.proxy.metaCacheDuration = metaCacheDuration
  genuine : ∀ f ∈ h.fetches, Genuine clients localIdx f
  caches : ∀ localOnly cache, h.proxy.cacheFor localOnly = some cache →
    cache.duration = metaCacheDuration ∧
      ∃ f, Latest h.fetches localOnly f ∧ f.result = .ok cache.metaResp ∧
        f.call.done = cache.timestamp

variable {clients localIdx : Nat} {metaCacheDuration : Int} {h h' : History} {c : Call}

theorem backed_started :
    Backed clients localIdx metaCacheDuration (started clients localIdx metaCacheDuration) := by
  refine ⟨rfl, rfl, rfl, by simp [started], fun localOnly cache hcache => ?_⟩
  cases localOnly <;> cases hcache

theorem record_cases (hrecord : record h c = .ok h') :
    (∃ cache, fresh c.now (h.proxy.cacheFor c.request.localOnly) = some cache ∧
      getMeta h.proxy c = .ok (h.proxy, .ok cache.metaResp) ∧ h' = h) ∨
    ∃ answer, getMeta h.proxy c = .ok (h'.proxy, answer) ∧ Asked h.proxy c h'.proxy answer ∧
      h'.fetches = h.fetches ++ [⟨c, answer⟩] := by
  rw [record] at hrecord
  obtain ⟨⟨e, answer⟩, hmeta, hok⟩ := bind_ok hrecord
  cases hok
  rcases getMeta_cases hmeta with ⟨cache, hfresh, rfl, rfl⟩ | hasked
  · refine Or.inl ⟨cache, hfresh, hmeta, ?_⟩
    rw [hfresh]
    simp
  · refine Or.inr ⟨answer, hmeta, hasked, ?_⟩
    rw [hasked.stale]
    rfl

theorem Backed.record (hbacked : Backed clients localIdx metaCacheDuration h)
    (hrecord : record h c = .ok h') :
    Backed clients localIdx metaCacheDuration h' := by
  rcases record_cases hrecord with ⟨_, _, _, rfl⟩ | ⟨answer, _, hasked, hfetches⟩
  · exact hbacked
  have hgenuine : ∀ f ∈ h'.fetches, Genuine clients localIdx f := by
    intro f hf
    rw [hfetches] at hf
    rcases List.mem_append.mp hf with hmem | hmem
    · exact hbacked.genuine f hmem
    · rw [List.mem_singleton.mp hmem, ← hbacked.clients_eq, ← hbacked.localIdx_eq]
      exact hasked.genuine
  have hproxy := hasked.eq_keep
  obtain ⟨hclients, hlocalIdx, hduration⟩ := h.proxy.keep_static c answer
  rw [← hproxy] at hclients hlocalIdx hduration
  refine ⟨hclients.trans hbacked.clients_eq, hlocalIdx.trans hbacked.localIdx_eq,
    hduration.trans hbacked.duration_eq, hgenuine, fun localOnly cache hcache => ?_⟩
  rw [hproxy] at hcache
  rw [hfetches]
  cases answer with
  | error err =>
      obtain ⟨hduration, f, hlatest, hresult, hdone⟩ := hbacked.caches localOnly cache hcache
      exact ⟨hduration, f, hlatest.concat fun _ => ⟨err, rfl⟩, hresult, hdone⟩
  | ok resp =>
      rw [EgressReverseProxy.keep, EgressReverseProxy.cacheFor_store] at hcache
      split_ifs at hcache with hkind
      · cases hcache
        refine ⟨hbacked.duration_eq, ⟨c, .ok resp⟩, ?_, rfl, rfl⟩
        rw [hkind]
        exact latest_concat h.fetches ⟨c, .ok resp⟩
      · obtain ⟨hduration, f, hlatest, hresult, hdone⟩ := hbacked.caches localOnly cache hcache
        exact ⟨hduration, f, hlatest.concat fun hsame => absurd hsame.symm hkind, hresult, hdone⟩

theorem backed_of_run {calls : List Call}
    (hrun : run record (started clients localIdx metaCacheDuration) calls = .ok h) :
    Backed clients localIdx metaCacheDuration h :=
  run_invariant (P := fun _ _ => True) (fun _ _ _ hs _ hstep => hs.record hstep) backed_started
    (along_of_forall (fun _ _ => trivial) _ _) hrun

theorem run_record_ok (hlocal : localIdx < clients) (calls : List Call) :
    ∃ h, run record (started clients localIdx metaCacheDuration) calls = .ok h := by
  have hstep : ∀ h c, Backed clients localIdx metaCacheDuration h → True →
      ∃ h', record h c = .ok h' ∧ Backed clients localIdx metaCacheDuration h' := by
    intro h c hbacked _
    obtain ⟨e, answer, hmeta⟩ :=
      getMeta_ok (e := h.proxy) (by rw [hbacked.localIdx_eq, hbacked.clients_eq]; exact hlocal) c
    have hrecord : ∃ h', record h c = .ok h' := by
      rw [record, hmeta]
      exact ⟨_, rfl⟩
    obtain ⟨h', hrecord⟩ := hrecord
    exact ⟨h', hrecord, hbacked.record hrecord⟩
  obtain ⟨h, hrun, _⟩ :=
    run_progress hstep backed_started (along_of_forall (fun _ _ => trivial) _ calls)
  exact ⟨h, hrun⟩

/-- An answer of `Meta` is that of a fetch of its kind, in the same call or in
an earlier one that is not too old and that no other has succeeded since; and
an error leaves the proxy as it was. -/
theorem meta_served (clients localIdx : Nat) (metaCacheDuration : Int) (calls : List Call) :
    (localIdx < clients → ∃ h, run record (started clients localIdx metaCacheDuration)
      calls = .ok h) ∧
    ∀ h c h', run record (started clients localIdx metaCacheDuration) calls = .ok h →
      record h c = .ok h' →
      (∀ f ∈ h'.fetches, Genuine clients localIdx f) ∧
      (∀ e resp, getMeta h.proxy c = .ok (e, .ok resp) →
        h'.fetches = h.fetches ++ [⟨c, .ok resp⟩] ∨
        ∃ f, Latest h.fetches c.request.localOnly f ∧ f.result = .ok resp ∧
          c.now ≤ f.call.done + metaCacheDuration ∧ h'.fetches = h.fetches) ∧
      ∀ e err, getMeta h.proxy c = .ok (e, .error err) →
        e = h.proxy ∧ h'.proxy = h.proxy ∧ h'.fetches = h.fetches ++ [⟨c, .error err⟩] := by
  refine ⟨fun hlocal => run_record_ok hlocal calls, fun h c h' hrun hrecord => ?_⟩
  have hbacked := backed_of_run hrun
  refine ⟨(hbacked.record hrecord).genuine, ?_⟩
  rcases record_cases hrecord with ⟨cache, hfresh, hmeta, rfl⟩ | ⟨answer, hmeta, hasked, hfetches⟩
  · refine ⟨fun e resp hresp => Or.inr ?_, fun e err herr => ?_⟩
    · cases hmeta.symm.trans hresp
      obtain ⟨hcache, hnot⟩ := Option.filter_eq_some_iff.mp hfresh
      obtain ⟨hduration, f, hlatest, hresult, hdone⟩ := hbacked.caches _ _ hcache
      refine ⟨f, hlatest, hresult, ?_, rfl⟩
      have hnow : ¬ cache.timestamp + cache.duration < c.now := by simpa [Cached.expired] using hnot
      rw [hdone, ← hduration]
      exact Int.not_lt.mp hnow
    · cases hmeta.symm.trans herr
  · refine ⟨fun e resp hresp => Or.inl ?_, fun e err herr => ?_⟩
    · cases hmeta.symm.trans hresp
      exact hfetches
    · cases hmeta.symm.trans herr
      exact ⟨hasked.unchanged err rfl, hasked.unchanged err rfl, hfetches⟩

noncomputable def localCall (now : Int) (answer : Except String MetaResponse) : Call :=
  ⟨⟨true⟩, now, now, fun _ _ => answer, .any⟩

/-- The client is down at the second call, which the cache answers. -/
theorem meta_served_from_cache :
    ∃ h, run record (started 1 0 5) [localCall 0 (.ok ∅)] = .ok h ∧
      getMeta h.proxy (localCall 3 (.error "down")) = .ok (h.proxy, .ok ∅) ∧
      ∃ f, Latest h.fetches true f ∧ f.result = .ok ∅ ∧ 3 ≤ f.call.done + 5 := by
  refine ⟨_, rfl, rfl, ?_⟩
  rcases ((meta_served 1 0 5 [localCall 0 (.ok ∅)]).2 _ (localCall 3 (.error "down")) _ rfl rfl).2.1
    _ ∅ rfl with
    hfetch | ⟨f, hlatest, hresult, hage, _⟩
  · exact absurd (congrArg List.length hfetch) (by decide)
  · exact ⟨f, hlatest, hresult, hage⟩

end history

end LogCache.MetaCache
