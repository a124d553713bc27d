import LogCache.CapiPages
import LogCache.MetaCache
import LogCache.TokenCache
import LogCache.UaaRead

namespace LogCache.AuthProxy

open Envelopes EnvelopeStore CapiResources UaaClient UaaRead

/-- The clients that the middleware asks, with the history of the one for CAPI.
`met` is history too: the calls of the client for UAA so far, and the client as
it was at each. -/
structure Proxy where
  uaa : UAAClient
  capi : CapiClient.Session
  met : List (UAAClient × UaaRead.Event)

def start (uaa : UAAClient) (addr : String) (cacheExpirationInterval : Int) : Proxy :=
  ⟨uaa, CapiClient.opened addr cacheExpirationInterval, []⟩

inductive Response
  | notFound
  | badGateway
  | panicked
  | forwarded
  | metaResponse (m : GoMap MetaInfo)

structure ReadRequest where
  sourceID : String
  authToken : String
  deps : Deps
  moment : Moment
  env : CapiClient.Environment
  now : Int

structure MetaRequest where
  authToken : String
  deps : Deps
  moment : Moment
  fetched : Except String (GoMap MetaInfo)
  env : CapiPages.Environment
  replies : List CapiPages.Reply

namespace Proxy

def oauth2Read (p : Proxy) (deps : Deps) (moment : Moment) (authToken : String) : Proxy × Outcome :=
  let result := read deps moment (utf8 authToken) p.uaa
  ({ p with uaa := result.client, met := p.met ++ [(p.uaa, .read deps moment (utf8 authToken))] },
    result.outcome)

/-- The handler of `/api/v1/read/{sourceID}`. The token of the context is
the one of the request. -/
def readHandler (p : Proxy) (r : ReadRequest) : Except Stop (Proxy × Response) :=
  if r.sourceID = "" ∨ r.authToken = "" then .ok (p, .notFound)
  else
    match p.oauth2Read r.deps r.moment r.authToken with
    | (p, .panicked) => .ok (p, .panicked)
    | (p, .failed _) => .ok (p, .notFound)
    | (p, .accepted userContext) =>
        if userContext.isAdmin then .ok (p, .forwarded)
        else
          match CapiClient.step p.capi (.isAuthorized r.sourceID r.authToken r.env r.now) with
          | .error err => .error (.panic err)
          | .ok capi =>
              .ok ({ p with capi := capi },
                if (p.capi.client.isAuthorized r.env r.now r.sourceID r.authToken).1 then .forwarded
                else .notFound)

def intersection (m : GoMap MetaInfo) (authorized : List String) : GoMap MetaInfo :=
  authorized.foldl (fun result id =>
    match m.lookup id with
    | some v => result.insert id v
    | none => result) ∅

def metaHandler (p : Proxy) (r : MetaRequest) : Except Stop (Proxy × Response) :=
  if r.authToken = "" then .ok (p, .notFound)
  else
    match p.oauth2Read r.deps r.moment r.authToken with
    | (p, .panicked) => .ok (p, .panicked)
    | (p, .failed _) => .ok (p, .notFound)
    | (p, .accepted c) =>
        match r.fetched with
        | .error _ => .ok (p, .badGateway)
        | .ok m =>
            if c.isAdmin then .ok (p, .metaResponse m)
            else
              match CapiPages.availableSourceIDs r.env
                (utf8 p.capi.client.addr) r.authToken r.replies with
              | none => .error .disabled
              | some authorized => .ok (p, .metaResponse (intersection m authorized))

end Proxy

inductive Event
  | read (r : ReadRequest)
  | readMeta (r : MetaRequest)
  | refreshTokenKeys (deps : Deps) (moment : Moment)
  | pruneTokens (now : String → Int) (order : SyncMap.RangeOrder String Int)

def step (p : Proxy) : Event → Except Stop Proxy
  | .read r => Prod.fst <$> p.readHandler r
  | .readMeta r => Prod.fst <$> p.metaHandler r
  | .refreshTokenKeys deps moment =>
      .ok { p with
        uaa := (refreshTokenKeys deps.uaa moment.orders moment.clock p.uaa).1
        met := p.met ++ [(p.uaa, .refresh deps moment)] }
  | .pruneTokens now order =>
      match CapiClient.step p.capi (.pruneTokens now order) with
      | .error err => .error (.panic err)
      | .ok capi => .ok { p with capi := capi }

section invariant

/-- UAA, asked as the client was at the start, has served the key to one of the
calls. -/
def ServedTo (c : UAAClient) (met : List (UAAClient × UaaRead.Event)) (keyId : String)
    (publicKey : PublicKey) : Prop :=
  ∃ m ∈ met, tokenKeysRequest m.1 = tokenKeysRequest c ∧ Serves m.1 m.2 keyId publicKey

structure Sound (c : UAAClient) (addr : String) (p : Proxy) : Prop where
  request : tokenKeysRequest p.uaa = tokenKeysRequest c
  keys : ∀ keyId publicKey, p.uaa.publicKeys.lookup keyId = some publicKey →
    ServedTo c p.met keyId publicKey
  capiAddr : p.capi.client.addr = addr

def Justified (p : Proxy) : Prop := TokenCache.Faithful p.capi ∧ TokenCache.AllJustified p.capi

/-- No pair of a token and a source has the key of another pair's grant. -/
def DistinctKey (p : Proxy) : Event → Prop
  | .read r => TokenCache.DistinctKey p.capi (.isAuthorized r.sourceID r.authToken r.env r.now)
  | .readMeta _ => True
  | .refreshTokenKeys _ _ => True
  | .pruneTokens _ _ => True

variable {c : UAAClient} {addr : String} {p p' : Proxy}

theorem start_sound (hempty : c.publicKeys = ∅) (addr : String) (interval : Int) :
    Sound c addr (start c addr interval) where
  request := rfl
  keys keyId publicKey h := by
    rw [start, hempty, Finmap.lookup_empty] at h
    cases h
  capiAddr := rfl

theorem start_justified (c : UAAClient) (addr : String) (interval : Int) :
    Justified (start c addr interval) := TokenCache.opened_faithful addr interval

theorem ServedTo.append {met : List (UAAClient × UaaRead.Event)} {keyId : String}
    {publicKey : PublicKey} (h : ServedTo c met keyId publicKey)
    (more : List (UAAClient × UaaRead.Event)) : ServedTo c (met ++ more) keyId publicKey := by
  obtain ⟨m, hm, hserved⟩ := h
  exact ⟨m, List.mem_append_left _ hm, hserved⟩

theorem uaa_sound (h : Sound c addr p) (event : UaaRead.Event) :
    Sound c addr { p with uaa := UaaRead.step p.uaa event, met := p.met ++ [(p.uaa, event)] } where
  request := (UaaRead.step_request event).trans h.request
  keys keyId publicKey hlookup := by
    rcases lookup_step hlookup with hold | hserved
    · exact (h.keys keyId publicKey hold).append _
    · exact ⟨(p.uaa, event), List.mem_append_right _ List.mem_cons_self, h.request, hserved⟩
  capiAddr := h.capiAddr

theorem oauth2Read_sound (h : Sound c addr p) (deps : Deps) (moment : Moment)
    (authToken : String) : Sound c addr (p.oauth2Read deps moment authToken).1 :=
  uaa_sound h (.read deps moment (utf8 authToken))

theorem isAuthorized_addr (client : CapiClient.CAPIClient)
    (env : CapiClient.Environment) (now : Int) (sourceId clientToken : String) :
    (client.isAuthorized env now sourceId clientToken).2.2.addr = client.addr := by
  rw [CapiClient.CAPIClient.isAuthorized]
  split
  · rfl
  · dsimp only
    split_ifs <;> rfl

theorem capi_addr {s s' : CapiClient.Session} {event : CapiClient.Event}
    (h : CapiClient.step s event = .ok s') :
    s'.client.addr = s.client.addr := by
  cases event with
  | pruneTokens now order =>
      cases h
      rfl
  | isAuthorized sourceId clientToken env now =>
      have haddr := isAuthorized_addr s.client env now sourceId clientToken
      cases h
      exact haddr

theorem capi_answer {s s' : CapiClient.Session} {sourceId clientToken : String}
    {env : CapiClient.Environment} {now : Int}
    (h : CapiClient.step s (.isAuthorized sourceId clientToken env now) = .ok s') :
    ∃ o ∈ s'.outcomes, o.grant = ⟨sourceId, clientToken⟩ ∧
      o.authorized = (s.client.isAuthorized env now sourceId clientToken).1 := by
  cases h
  exact ⟨_, List.mem_cons_self, rfl, rfl⟩

theorem capi_justified (h : Justified p) {event : CapiClient.Event}
    (hkey : TokenCache.DistinctKey p.capi event) {capi : CapiClient.Session}
    (hstep : CapiClient.step p.capi event = .ok capi) : Justified { p with capi := capi } := by
  obtain ⟨capi', hstep', hgrants⟩ := TokenCache.step_faithful h hkey
  rw [hstep] at hstep'
  cases hstep'
  exact hgrants

def GrantedTo (addr : String) (p : Proxy) (sourceID authToken : String) : Prop :=
  ∃ o ∈ p.capi.outcomes, o.grant = ⟨sourceID, authToken⟩ ∧
    (CapiClient.Granted addr o ∨ o.remembered = true)

inductive ReadSteps (p : Proxy) (r : ReadRequest) : Proxy → Response → Prop
  | empty : ReadSteps p r p .notFound
  | panicked : ReadSteps p r (p.oauth2Read r.deps r.moment r.authToken).1 .panicked
  | failed : ReadSteps p r (p.oauth2Read r.deps r.moment r.authToken).1 .notFound
  | admin {context : Oauth2ClientContext}
      (haccepted : (read r.deps r.moment (utf8 r.authToken) p.uaa).outcome = .accepted context)
      (hadmin : context.isAdmin = true) :
      ReadSteps p r (p.oauth2Read r.deps r.moment r.authToken).1 .forwarded
  | asked {context : Oauth2ClientContext} {capi : CapiClient.Session}
      (haccepted : (read r.deps r.moment (utf8 r.authToken) p.uaa).outcome = .accepted context)
      (hstep : CapiClient.step p.capi (.isAuthorized r.sourceID r.authToken r.env r.now) =
        .ok capi) :
      ReadSteps p r { (p.oauth2Read r.deps r.moment r.authToken).1 with capi := capi }
        (if (p.capi.client.isAuthorized r.env r.now r.sourceID r.authToken).1 then .forwarded
          else .notFound)

theorem readHandler_steps {r : ReadRequest} {response : Response}
    (hr : p.readHandler r = .ok (p', response)) : ReadSteps p r p' response := by
  rw [Proxy.readHandler] at hr
  split_ifs at hr with hempty
  · cases hr
    exact .empty
  · have hread : p.oauth2Read r.deps r.moment r.authToken =
        ((p.oauth2Read r.deps r.moment r.authToken).1,
          (read r.deps r.moment (utf8 r.authToken) p.uaa).outcome) := rfl
    rw [hread] at hr
    cases houtcome : (read r.deps r.moment (utf8 r.authToken) p.uaa).outcome with
    | panicked =>
        rw [houtcome] at hr
        cases hr
        exact .panicked
    | failed err =>
        rw [houtcome] at hr
        cases hr
        exact .failed
    | accepted context =>
        rw [houtcome] at hr
        dsimp only at hr
        by_cases hadmin : context.isAdmin = true
        · rw [if_pos hadmin] at hr
          cases hr
          exact .admin houtcome hadmin
        · rw [if_neg hadmin] at hr
          have hcapi : (p.oauth2Read r.deps r.moment r.authToken).1.capi = p.capi := rfl
          rw [hcapi] at hr
          cases hstep : CapiClient.step p.capi
            (.isAuthorized r.sourceID r.authToken r.env r.now) with
          | error err => simp [hstep] at hr
          | ok capi =>
              simp only [hstep, Except.ok.injEq, Prod.mk.injEq] at hr
              obtain ⟨rfl, rfl⟩ := hr
              exact .asked houtcome hstep

theorem readHandler_sound (h : Sound c addr p) {r : ReadRequest} {response : Response}
    (hr : p.readHandler r = .ok (p', response)) : Sound c addr p' := by
  have hsound := oauth2Read_sound h r.deps r.moment r.authToken
  cases readHandler_steps hr with
  | empty => exact h
  | panicked | failed | admin => exact hsound
  | asked haccepted hstep => exact { hsound with capiAddr := (capi_addr hstep).trans h.capiAddr }

theorem readHandler_justified (h : Justified p) {r : ReadRequest} (hkey : DistinctKey p (.read r))
    {response : Response} (hr : p.readHandler r = .ok (p', response)) : Justified p' := by
  cases readHandler_steps hr with
  | empty | panicked | failed | admin => exact h
  | asked haccepted hstep =>
      exact @capi_justified p h (.isAuthorized r.sourceID r.authToken r.env r.now) hkey _ hstep

theorem readHandler_forwarded (h : Sound c addr p) (hjustified : Justified p) {r : ReadRequest}
    (hkey : DistinctKey p (.read r)) (hr : p.readHandler r = .ok (p', .forwarded)) :
    ∃ context, (read r.deps r.moment (utf8 r.authToken) p.uaa).outcome = .accepted context ∧
      (context.isAdmin = true ∨ GrantedTo addr p' r.sourceID r.authToken) := by
  have hsound := readHandler_sound h hr
  have hgrants := readHandler_justified hjustified hkey hr
  generalize hresponse : Response.forwarded = response at hr
  cases readHandler_steps hr with
  | empty | panicked | failed => cases hresponse
  | admin haccepted hadmin => exact ⟨_, haccepted, .inl hadmin⟩
  | asked haccepted hstep =>
      refine ⟨_, haccepted, .inr ?_⟩
      obtain ⟨o, hmem, hgrant, hauthorized⟩ := capi_answer hstep
      have hforwarded :
          (p.capi.client.isAuthorized r.env r.now r.sourceID r.authToken).1 = true := by
        by_contra hnot
        rw [if_neg hnot] at hresponse
        cases hresponse
      have hgranted := hgrants.2 o hmem (hauthorized.trans hforwarded)
      rw [hsound.capiAddr] at hgranted
      exact ⟨o, hmem, hgrant, hgranted⟩

theorem lookup_intersection (m : GoMap MetaInfo) (authorized : List String) (id : String) :
    (Proxy.intersection m authorized).lookup id = if id ∈ authorized then m.lookup id
      else none := by
  rw [Proxy.intersection]
  induction authorized using List.reverseRecOn with
  | nil => simp
  | append_singleton authorized id' ih =>
      simp only [List.foldl_append, List.foldl_cons, List.foldl_nil, List.mem_append,
        List.mem_singleton]
      by_cases heq : id = id'
      · rw [if_pos (.inr heq), heq]
        rw [heq] at ih
        cases hlookup : m.lookup id' with
        | some v => exact Finmap.lookup_insert _
        | none => simpa [hlookup] using ih
      · simp only [heq, or_false]
        cases m.lookup id' with
        | some v => rw [MapOrders.lookup_insert_eq, if_neg heq, ih]
        | none => exact ih

inductive MetaSteps (p : Proxy) (r : MetaRequest) : Proxy → Response → Prop
  | empty : MetaSteps p r p .notFound
  | panicked : MetaSteps p r (p.oauth2Read r.deps r.moment r.authToken).1 .panicked
  | failed : MetaSteps p r (p.oauth2Read r.deps r.moment r.authToken).1 .notFound
  | unavailable : MetaSteps p r (p.oauth2Read r.deps r.moment r.authToken).1 .badGateway
  | admin {context : Oauth2ClientContext} {fetched : GoMap MetaInfo}
      (haccepted : (read r.deps r.moment (utf8 r.authToken) p.uaa).outcome = .accepted context)
      (hfetched : r.fetched = .ok fetched) (hadmin : context.isAdmin = true) :
      MetaSteps p r (p.oauth2Read r.deps r.moment r.authToken).1 (.metaResponse fetched)
  | user {context : Oauth2ClientContext} {fetched : GoMap MetaInfo} {authorized : List String}
      (haccepted : (read r.deps r.moment (utf8 r.authToken) p.uaa).outcome = .accepted context)
      (hfetched : r.fetched = .ok fetched) (huser : context.isAdmin = false)
      (havailable : CapiPages.availableSourceIDs r.env (utf8 p.capi.client.addr) r.authToken
        r.replies = some authorized) :
      MetaSteps p r (p.oauth2Read r.deps r.moment r.authToken).1
        (.metaResponse (Proxy.intersection fetched authorized))

theorem metaHandler_steps {r : MetaRequest} {response : Response}
    (hr : p.metaHandler r = .ok (p', response)) : MetaSteps p r p' response := by
  rw [Proxy.metaHandler] at hr
  split_ifs at hr with hempty
  · cases hr
    exact .empty
  · have hread : p.oauth2Read r.deps r.moment r.authToken =
        ((p.oauth2Read r.deps r.moment r.authToken).1,
          (read r.deps r.moment (utf8 r.authToken) p.uaa).outcome) := rfl
    rw [hread] at hr
    cases houtcome : (read r.deps r.moment (utf8 r.authToken) p.uaa).outcome with
    | panicked =>
        rw [houtcome] at hr
        cases hr
        exact .panicked
    | failed err =>
        rw [houtcome] at hr
        cases hr
        exact .failed
    | accepted context =>
        rw [houtcome] at hr
        cases hfetched : r.fetched with
        | error err =>
            rw [hfetched] at hr
            cases hr
            exact .unavailable
        | ok fetched =>
            rw [hfetched] at hr
            dsimp only at hr
            have hcapi : (p.oauth2Read r.deps r.moment r.authToken).1.capi = p.capi := rfl
            rw [hcapi] at hr
            split_ifs at hr with hadmin
            · cases hr
              exact .admin houtcome hfetched hadmin
            · split at hr
              next => cases hr
              next authorized havailable =>
                cases hr
                exact .user houtcome hfetched (Bool.eq_false_iff.mpr hadmin) havailable

theorem metaHandler_sound (h : Sound c addr p) {r : MetaRequest} {response : Response}
    (hr : p.metaHandler r = .ok (p', response)) : Sound c addr p' := by
  cases metaHandler_steps hr with
  | empty => exact h
  | panicked | failed | unavailable | admin | user =>
      exact oauth2Read_sound h r.deps r.moment r.authToken

theorem metaHandler_capi {r : MetaRequest} {response : Response}
    (hr : p.metaHandler r = .ok (p', response)) : p'.capi = p.capi := by
  cases metaHandler_steps hr <;> rfl

theorem metaHandler_answer (h : Sound c addr p) {r : MetaRequest} {m : GoMap MetaInfo}
    (hr : p.metaHandler r = .ok (p', .metaResponse m)) :
    ∃ context fetched,
      (read r.deps r.moment (utf8 r.authToken) p.uaa).outcome = .accepted context ∧
      r.fetched = .ok fetched ∧
      (context.isAdmin = true ∧ m = fetched ∨ context.isAdmin = false ∧ ∃ authorized,
        CapiPages.availableSourceIDs r.env (utf8 addr) r.authToken r.replies = some authorized ∧
          ∀ id, m.lookup id = if id ∈ authorized then fetched.lookup id else none) := by
  generalize hresponse : Response.metaResponse m = response at hr
  cases metaHandler_steps hr with
  | empty | panicked | failed | unavailable => cases hresponse
  | admin haccepted hfetched hadmin =>
      cases hresponse
      exact ⟨_, _, haccepted, hfetched, .inl ⟨hadmin, rfl⟩⟩
  | user haccepted hfetched huser havailable =>
      cases hresponse
      rw [h.capiAddr] at havailable
      exact ⟨_, _, haccepted, hfetched,
        .inr ⟨huser, _, havailable, lookup_intersection _ _⟩⟩

theorem step_pruneTokens {now : String → Int} {order : SyncMap.RangeOrder String Int}
    (hstep : step p (.pruneTokens now order) = .ok p') :
    ∃ capi, CapiClient.step p.capi (.pruneTokens now order) = .ok capi ∧
      p' = { p with capi := capi } := by
  rw [step] at hstep
  cases hcapi : CapiClient.step p.capi (.pruneTokens now order) with
  | error err => simp [hcapi] at hstep
  | ok capi =>
      simp only [hcapi, Except.ok.injEq] at hstep
      exact ⟨capi, rfl, hstep.symm⟩

theorem step_sound {event : Event} (h : Sound c addr p) (hstep : step p event = .ok p') :
    Sound c addr p' := by
  cases event with
  | read r =>
      obtain ⟨⟨q, response⟩, hr, rfl⟩ := Runs.map_ok hstep
      exact readHandler_sound h hr
  | readMeta r =>
      obtain ⟨⟨q, response⟩, hr, rfl⟩ := Runs.map_ok hstep
      exact metaHandler_sound h hr
  | refreshTokenKeys deps moment =>
      cases hstep
      exact uaa_sound h (.refresh deps moment)
  | pruneTokens now order =>
      obtain ⟨capi, hcapi, rfl⟩ := step_pruneTokens hstep
      exact { h with capiAddr := (capi_addr hcapi).trans h.capiAddr }

theorem step_justified {event : Event} (h : Justified p) (hkey : DistinctKey p event)
    (hstep : step p event = .ok p') : Justified p' := by
  cases event with
  | read r =>
      obtain ⟨⟨q, response⟩, hr, rfl⟩ := Runs.map_ok hstep
      exact readHandler_justified h hkey hr
  | readMeta r =>
      obtain ⟨⟨q, response⟩, hr, rfl⟩ := Runs.map_ok hstep
      rw [Justified, metaHandler_capi hr]
      exact h
  | refreshTokenKeys deps moment =>
      cases hstep
      exact h
  | pruneTokens now order =>
      obtain ⟨capi, hcapi, rfl⟩ := step_pruneTokens hstep
      exact @capi_justified p h (.pruneTokens now order) trivial capi hcapi

end invariant

section results

/-- The token of a request was verified with a key that UAA has served under the
name in its header, to this call or to an earlier one, and it has not expired. -/
def Authenticated (c : UAAClient) (p : Proxy) (deps : Deps) (moment : Moment) (authToken : String)
    (context : Oauth2ClientContext) : Prop :=
  ∃ header payload signature x c' claims,
    Jose.parse (trimBearer (utf8 authToken)) = .ok [header, payload, signature] ∧
    Decodes deps moment p.uaa c' header payload signature x ∧
    ServedTo c (p.met ++ [(p.uaa, .read deps moment (utf8 authToken))]) x.keyId x.publicKey ∧
    deps.decodeClaims payload = .ok claims ∧ moment.now ≤ unixTime claims.exp ∧
    context.isAdmin = isAdmin claims.scope

variable {c : UAAClient} {addr : String} {p : Proxy}

theorem Sound.authenticated (h : Sound c addr p) {deps : Deps} {moment : Moment}
    {authToken : String} {context : Oauth2ClientContext}
    (haccepted : (read deps moment (utf8 authToken) p.uaa).outcome = .accepted context) :
    Authenticated c p deps moment authToken context := by
  obtain ⟨_, payload, c', hdecode, hpayload⟩ := read_outcome.mp haccepted
  obtain ⟨header, signature, x, hparse, hx⟩ := decode_ok.mp hdecode
  obtain ⟨claims, hclaims, hexp, rfl⟩ := readPayload_accepted.mp hpayload
  refine ⟨header, payload, signature, x, c', claims, hparse, hx, ?_, hclaims, hexp, rfl⟩
  rcases lookup_of_decodes hparse hx with hold | hserved
  · exact (h.keys x.keyId x.publicKey hold).append _
  · exact ⟨_, List.mem_append_right _ List.mem_cons_self, h.request, hserved⟩

theorem run_sound (hempty : c.publicKeys = ∅) {interval : Int} {events : List Event}
    (hrun : Runs.run step (start c addr interval) events = .ok p) : Sound c addr p :=
  Runs.run_invariant (fun _ _ _ hs _ hstep => step_sound hs hstep)
    (start_sound hempty addr interval) (Runs.along_of_forall (fun _ _ => trivial) _ _) hrun

theorem run_justified {interval : Int} {events : List Event}
    (hkeys : Runs.Along step DistinctKey (start c addr interval) events)
    (hrun : Runs.run step (start c addr interval) events = .ok p) : Justified p :=
  Runs.run_invariant (I := Justified) (fun _ _ _ hs hk hstep => step_justified hs hk hstep)
    (start_justified c addr interval) hkeys hrun

/-- After any run of the proxy a request for envelopes goes through only with an
authenticated token, of an administrator or one to which CAPI has granted the
source. -/
theorem proxy_forwards_granted (c : UAAClient) (hempty : c.publicKeys = ∅) (addr : String)
    (interval : Int) (events : List Event) (p : Proxy)
    (hkeys : Runs.Along step DistinctKey (start c addr interval) events)
    (hrun : Runs.run step (start c addr interval) events = .ok p) (r : ReadRequest)
    (hkey : DistinctKey p (.read r)) (p' : Proxy)
    (hforwarded : p.readHandler r = .ok (p', .forwarded)) :
    ∃ context, Authenticated c p r.deps r.moment r.authToken context ∧
      (context.isAdmin = true ∨ GrantedTo addr p' r.sourceID r.authToken) := by
  have h := run_sound hempty hrun
  obtain ⟨context, haccepted, hentitled⟩ :=
    readHandler_forwarded h (run_justified hkeys hrun) hkey hforwarded
  exact ⟨context, h.authenticated haccepted, hentitled⟩

section sample

/-- The proxy after it has fetched the keys, and a request with a token that is
signed with one of them. -/
noncomputable def sampleProxy : Proxy :=
  ⟨refreshed, CapiClient.opened "https://capi" 60,
    [(emptyClient, .refresh sampleDeps sampleMoment)]⟩

def sampleToken : String :=
  "eyJhbGciOiJIUzI1NiIsImtpZCI6ImtleS0xIn0." ++
    "eyJzY29wZSI6WyJvcGVuaWQiXSwiZXhwIjoxNzAwMDAzNjAwfQ." ++
    "e3BiirFbeqdLTixTTmkph1p2yglbsRPAoYPtoyqyTY8"

noncomputable def sampleRead : ReadRequest where
  sourceID := "app"
  authToken := sampleToken
  deps := sampleDeps
  moment := sampleMoment
  env := ⟨fun _ => true, fun _ => some 200⟩
  now := 0

theorem sampleRun : Runs.run step (start emptyClient "https://capi" 60)
    [.refreshTokenKeys sampleDeps sampleMoment] = .ok sampleProxy := rfl

theorem sample_oauth2Read : ∃ q, sampleProxy.oauth2Read sampleDeps sampleMoment sampleToken =
    (q, .accepted ⟨false, signedToken, unixTime 1700003600⟩) ∧
      q.capi = CapiClient.opened "https://capi" 60 := by
  have htoken : utf8 sampleToken = signedToken := by decide +kernel
  have houtcome : (read sampleDeps sampleMoment (utf8 sampleToken) sampleProxy.uaa).outcome =
      .accepted ⟨false, signedToken, unixTime 1700003600⟩ := by
    rw [htoken]
    exact signedToken_read
  rw [Proxy.oauth2Read, houtcome]
  exact ⟨_, rfl, rfl⟩

theorem sampleToken_ne : sampleToken ≠ "" := by
  intro h
  have hlast : "e3BiirFbeqdLTixTTmkph1p2yglbsRPAoYPtoyqyTY8" = "" :=
    (String.append_eq_empty_iff.mp h).2
  simp at hlast

theorem sample_forwarded : ∃ p', sampleProxy.readHandler sampleRead = .ok (p', .forwarded) := by
  obtain ⟨q, hread, hcapi⟩ := sample_oauth2Read
  have hnonempty : ¬ (sampleRead.sourceID = "" ∨ sampleRead.authToken = "") :=
    not_or.mpr ⟨by decide, sampleToken_ne⟩
  rw [Proxy.readHandler, if_neg hnonempty]
  simp only [sampleRead, hread, hcapi]
  exact ⟨_, rfl⟩

end sample

theorem proxy_forwards_granted_app : ∃ p' context,
    sampleProxy.readHandler sampleRead = .ok (p', .forwarded) ∧
      Authenticated emptyClient sampleProxy sampleDeps sampleMoment sampleToken context ∧
      (context.isAdmin = true ∨ GrantedTo "https://capi" p' "app" sampleToken) := by
  obtain ⟨p', hforwarded⟩ := sample_forwarded
  have hkey : DistinctKey sampleProxy (.read sampleRead) := fun g hg => absurd hg List.not_mem_nil
  obtain ⟨context, hcontext⟩ := proxy_forwards_granted emptyClient rfl "https://capi" 60
    [.refreshTokenKeys sampleDeps sampleMoment] sampleProxy ⟨trivial, fun _ _ => trivial⟩ sampleRun
    sampleRead hkey p' hforwarded
  exact ⟨p', context, hforwarded, hcontext⟩

/-- The meta information that goes out is all of it for an administrator, and
otherwise that of the sources that CAPI lists for the token. -/
theorem proxy_confines_meta (c : UAAClient) (hempty : c.publicKeys = ∅) (addr : String)
    (interval : Int) (events : List Event) (p : Proxy)
    (hrun : Runs.run step (start c addr interval) events = .ok p) (r : MetaRequest) (p' : Proxy)
    (m : GoMap MetaInfo) (hanswer : p.metaHandler r = .ok (p', .metaResponse m)) :
    ∃ context fetched, Authenticated c p r.deps r.moment r.authToken context ∧
      r.fetched = .ok fetched ∧
      (context.isAdmin = true ∧ m = fetched ∨ context.isAdmin = false ∧ ∃ authorized,
        CapiPages.availableSourceIDs r.env (utf8 addr) r.authToken r.replies = some authorized ∧
          ∀ id, m.lookup id = if id ∈ authorized then fetched.lookup id else none) := by
  have h := run_sound hempty hrun
  obtain ⟨context, fetched, haccepted, hanswer⟩ := metaHandler_answer h hanswer
  exact ⟨context, fetched, h.authenticated haccepted, hanswer⟩

def appsBody : List UInt8 :=
  bytesOf ("\x7b\"pagination\":\x7b\"next\":null\x7d," ++
    "\"resources\":[\x7b\"guid\":\"app\",\"name\":\"shop\"\x7d]\x7d")

def servicesBody : List UInt8 :=
  bytesOf ("\x7b\"pagination\":\x7b\"next\":null\x7d," ++
    "\"resources\":[\x7b\"guid\":\"db\",\"name\":\"data\"\x7d]\x7d")

def sampleFetched : GoMap MetaInfo :=
  (((∅ : GoMap MetaInfo).insert "app" ⟨1, 0, 5, 5⟩).insert "db" ⟨2, 0, 5, 6⟩).insert "other"
    ⟨3, 0, 5, 7⟩

/-- The user asks for the meta information of three sources, and CAPI lists one
of them as an application and one as a service instance. -/
noncomputable def sampleMeta : MetaRequest where
  authToken := sampleToken
  deps := sampleDeps
  moment := sampleMoment
  fetched := .ok sampleFetched
  env := CapiPages.knowing
    [(appsBody, ⟨"", [⟨"app", "shop"⟩]⟩), (servicesBody, ⟨"", [⟨"db", "data"⟩]⟩)]
  replies := [.ok ⟨200, appsBody⟩, .ok ⟨200, servicesBody⟩]

theorem sample_page {env : CapiPages.Environment} {body : List UInt8}
    {resources : List CapiPages.Resource} (hdecode : env.decode body = .ok ⟨"", resources⟩)
    (authToken : String) (req : CapiPages.Request) (rest : List CapiPages.Reply) :
    ∃ sent, CapiPages.doPaginatedResourceRequest env authToken req (.ok ⟨200, body⟩ :: rest) =
      some ⟨.ok resources, sent, rest⟩ := by
  simp [CapiPages.doPaginatedResourceRequest, CapiPages.pageLoop,
    CapiPages.doResourceRequest, hdecode]

theorem sample_available : CapiPages.availableSourceIDs sampleMeta.env (utf8 "https://capi")
    sampleMeta.authToken sampleMeta.replies = some ["app", "db"] := by
  have happs : sampleMeta.env.decode appsBody = .ok ⟨"", [⟨"app", "shop"⟩]⟩ :=
    CapiPages.decode_knowing_head _ _ _
  have hservices : sampleMeta.env.decode servicesBody = .ok ⟨"", [⟨"db", "data"⟩]⟩ :=
    (CapiPages.decode_knowing_tail (by decide) _ _).trans (CapiPages.decode_knowing_head _ _ _)
  have hrequest : ∀ resourceType ∈ ["apps", "service_instances"], ∃ req,
      CapiPages.collectionRequest sampleMeta.env (utf8 "https://capi") ("/v3/" ++ resourceType)
        [("per_page", "5000")] = .ok req := by
    simp only [List.forall_mem_cons]
    exact ⟨⟨_, rfl⟩, ⟨_, rfl⟩, fun _ h => absurd h List.not_mem_nil⟩
  obtain ⟨req, hreq⟩ := hrequest "apps" (by simp)
  obtain ⟨req', hreq'⟩ := hrequest "service_instances" (by simp)
  obtain ⟨sent, hsent⟩ := sample_page happs sampleMeta.authToken req [.ok ⟨200, servicesBody⟩]
  obtain ⟨sent', hsent'⟩ := sample_page hservices sampleMeta.authToken req' []
  have hreplies : sampleMeta.replies = [.ok ⟨200, appsBody⟩, .ok ⟨200, servicesBody⟩] := rfl
  simp only [CapiPages.availableSourceIDs, CapiPages.sourceIDsForResourceType, hreplies,
    hreq, hsent, hreq', hsent', Option.map_some, Option.bind_some]
  rfl

theorem sample_answered : ∃ p', sampleProxy.metaHandler sampleMeta =
    .ok (p', .metaResponse (Proxy.intersection sampleFetched ["app", "db"])) := by
  obtain ⟨q, hread, hcapi⟩ := sample_oauth2Read
  have havailable := sample_available
  simp only [sampleMeta] at havailable
  rw [Proxy.metaHandler, if_neg (show sampleMeta.authToken ≠ "" from sampleToken_ne)]
  simp only [sampleMeta, hread, hcapi, CapiClient.opened, havailable]
  exact ⟨_, rfl⟩

theorem proxy_confines_meta_user : ∃ p' m context,
    sampleProxy.metaHandler sampleMeta = .ok (p', .metaResponse m) ∧
      Authenticated emptyClient sampleProxy sampleDeps sampleMoment sampleToken context ∧
      context.isAdmin = false ∧ (m.lookup "app").isSome = true ∧ (m.lookup "db").isSome = true ∧
      m.lookup "other" = none := by
  obtain ⟨p', hanswer⟩ := sample_answered
  obtain ⟨context, fetched, hcontext, hfetched, hconfined⟩ := proxy_confines_meta emptyClient rfl
    "https://capi" 60 [.refreshTokenKeys sampleDeps sampleMoment] sampleProxy sampleRun sampleMeta
    p' _ hanswer
  have hother : (Proxy.intersection sampleFetched ["app", "db"]).lookup "other" = none := by
    rw [lookup_intersection]
    rfl
  refine ⟨p', _, context, hanswer, hcontext, ?_, ?_, ?_, hother⟩
  · obtain rfl : sampleFetched = fetched := Except.ok.inj hfetched
    rcases hconfined with ⟨-, hall⟩ | ⟨hadmin, -⟩
    · rw [hall] at hother
      cases hother
    · exact hadmin
  · rw [lookup_intersection]
    rfl
  · rw [lookup_intersection]
    rfl

end results

end LogCache.AuthProxy
