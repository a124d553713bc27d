import LogCache.SyncMap
import LogCache.Envelopes

namespace LogCache.CapiClient

open Envelopes

structure Request where
  url : String
  authorization : String
deriving DecidableEq

structure Exchange where
  request : Request
  status : Option Nat
deriving DecidableEq

structure CAPIClient where
  addr : String
  tokenCache : SyncMap.Map String Int
  cacheExpirationInterval : Int

/-- What the client meets outside: which URLs `http.NewRequest` takes, and how
CAPI responds. -/
structure Environment where
  parses : String → Bool
  respond : Request → Option Nat

namespace CAPIClient

def hasResource (c : CAPIClient) (env : Environment) (path sourceID authToken : String) :
    List Exchange × Bool :=
  let url := c.addr ++ path ++ sourceID
  if env.parses url then
    let status := env.respond ⟨url, authToken⟩
    ([⟨⟨url, authToken⟩, status⟩], status = some 200)
  else ([], false)

def hasApp (c : CAPIClient) (env : Environment) (sourceID authToken : String) :
    List Exchange × Bool :=
  c.hasResource env "/v3/apps/" sourceID authToken

def hasService (c : CAPIClient) (env : Environment) (sourceID authToken : String) :
    List Exchange × Bool :=
  c.hasResource env "/v2/service_instances/" sourceID authToken

/-- The answer, the exchanges with CAPI that led to it, and the client
afterwards. -/
def isAuthorized (c : CAPIClient) (env : Environment) (now : Int) (sourceId clientToken : String) :
    Bool × List Exchange × CAPIClient :=
  match c.tokenCache.lookup (clientToken ++ sourceId) with
  | some _ => (true, [], c)
  | none =>
      let stored := { c with tokenCache := c.tokenCache.insert (clientToken ++ sourceId) now }
      let app := c.hasApp env sourceId clientToken
      if app.2 then (true, app.1, stored)
      else
        let service := c.hasService env sourceId clientToken
        if service.2 then (true, app.1 ++ service.1, stored) else (false, app.1 ++ service.1, c)

/-- One pass of `pruneTokens`; `now` is the time at which it looks at a key. -/
def pruneTokens (c : CAPIClient) (now : String → Int) (order : SyncMap.RangeOrder String Int) :
    CAPIClient :=
  { c with tokenCache := (order.visit c.tokenCache.entries).foldl (fun cache x =>
      if c.cacheExpirationInterval ≤ now x.1 - x.2 then cache.erase x.1 else cache) c.tokenCache }

end CAPIClient

structure Grant where
  sourceId : String
  clientToken : String
deriving DecidableEq

def Grant.key (g : Grant) : String := g.clientToken ++ g.sourceId

/-- An answer that was given. `remembered` says whether CAPI had granted the
same pair in an earlier call whose cache entry was still there. -/
structure Outcome where
  grant : Grant
  authorized : Bool
  exchanges : List Exchange
  remembered : Bool

/-- A client with its history: the granted pairs whose entry has not been
pruned, and the answers so far. -/
structure Session where
  client : CAPIClient
  live : List Grant
  outcomes : List Outcome

def opened (addr : String) (cacheExpirationInterval : Int) : Session :=
  ⟨⟨addr, ∅, cacheExpirationInterval⟩, [], []⟩

inductive Event
  | isAuthorized (sourceId clientToken : String) (env : Environment) (now : Int)
  | pruneTokens (now : String → Int) (order : SyncMap.RangeOrder String Int)

def Granted (addr : String) (o : Outcome) : Prop :=
  ∃ x ∈ o.exchanges, x.status = some 200 ∧ x.request.authorization = o.grant.clientToken ∧
    (x.request.url = addr ++ "/v3/apps/" ++ o.grant.sourceId ∨
      x.request.url = addr ++ "/v2/service_instances/" ++ o.grant.sourceId)

instance (addr : String) (o : Outcome) : Decidable (Granted addr o) :=
  inferInstanceAs (Decidable (∃ _ ∈ _, _))

def Justified (addr : String) (o : Outcome) : Prop :=
  o.authorized = true → Granted addr o ∨ o.remembered = true

instance (addr : String) (o : Outcome) : Decidable (Justified addr o) :=
  inferInstanceAs (Decidable (_ → _))

/-- A call that reached CAPI and was granted adds to the live grants; a pass of
`pruneTokens` takes out those whose entry it deleted. -/
def step (s : Session) : Event → Except Panic Session
  | .isAuthorized sourceId clientToken env now =>
      let grant := ⟨sourceId, clientToken⟩
      let (authorized, exchanges, client) := s.client.isAuthorized env now sourceId clientToken
      let outcome := ⟨grant, authorized, exchanges, grant ∈ s.live⟩
      let live := if Granted s.client.addr outcome then grant :: s.live else s.live
      .ok ⟨client, live, outcome :: s.outcomes⟩
  | .pruneTokens now order =>
      let client := s.client.pruneTokens now order
      .ok ⟨client, s.live.filter (·.key ∈ client.tokenCache), s.outcomes⟩

end LogCache.CapiClient
