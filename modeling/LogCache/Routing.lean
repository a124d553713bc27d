import LogCache.ReadPath
import LogCache.Runs

namespace LogCache.Routing

open Envelopes EnvelopeStore ReadPath

/-- `xxhash.Sum64String`, and `jmphash` over a number of buckets. -/
structure Hashing where
  sum64String : String → UInt64
  hash : Nat → UInt64 → Nat
  hash_lt : ∀ {n : Nat} (key : UInt64), 0 < n → hash n key < n

structure HostRange where
  hostIndex : Nat
  start : UInt64
  stop : UInt64

structure RoutingTable where
  addresses : SyncMap.Map String Nat
  replicationFactor : Nat
  buckets : Nat
  table : List HostRange

def newRoutingTable (addrs : List String) (replicationFactor : Nat) : Except String RoutingTable :=
  if replicationFactor = 0 then .error "replication factor must be greater than 0"
  else if addrs.length < replicationFactor then
    .error "replication factor cannot exceed number of available hosts"
  else
    .ok { addresses := addrs.zipIdx.foldl (fun addresses addr => addresses.insert addr.1 addr.2) ∅
          replicationFactor := replicationFactor
          buckets := max addrs.length 1
          table := [] }

def RoutingTable.lookup (h : Hashing) (t : RoutingTable) (item : String) : List Nat :=
  let hashValue := h.sum64String item
  let node := h.hash t.buckets hashValue
  (List.range t.replicationFactor).map (fun n =>
    (node + n * t.replicationFactor) % t.addresses.entries.length) ++
    (t.table.filter fun r => r.start ≤ hashValue ∧ hashValue ≤ r.stop).map HostRange.hostIndex

structure SendRequest where
  localOnly : Bool
  envelopes : Option (List Envelope)

/-- `GetEnvelopes().GetBatch()`, which takes a missing batch for an empty one. -/
def SendRequest.batch (r : SendRequest) : List Envelope := r.envelopes.getD []

/-- The client for a peer: a diode, taken to drop nothing, and the batch that
the batcher has collected. -/
structure BatchedIngressClient where
  addr : String
  size : Nat
  localOnly : Bool
  buffer : List Envelope
  batch : List Envelope

def newBatchedIngressClient (size : Nat) (addr : String) : BatchedIngressClient :=
  ⟨addr, size, true, [], []⟩

namespace BatchedIngressClient

def send (b : BatchedIngressClient) (r : SendRequest) : BatchedIngressClient :=
  { b with buffer := b.buffer ++ r.batch }

def writeBatch (b : BatchedIngressClient) : BatchedIngressClient × List SendRequest :=
  match b.batch with
  | [] => (b, [])
  | batch => ({ b with batch := [] }, [⟨b.localOnly, some batch⟩])

/-- One turn of the loop in `start`. `elapsed` says whether the interval has
lapsed since the last batch. -/
def poll (b : BatchedIngressClient) (elapsed : Bool) : BatchedIngressClient × List SendRequest :=
  match b.buffer with
  | [] => if elapsed then b.writeBatch else (b, [])
  | e :: buffer =>
      let b := { b with buffer := buffer, batch := b.batch ++ [e] }
      if b.batch.length < b.size ∧ ¬ elapsed then (b, []) else b.writeBatch

end BatchedIngressClient

inductive IngressClient
  | store
  | peer (b : BatchedIngressClient)

inductive EgressClient
  | localStoreReader
  | peer (addr : String)

/-- A node with its two proxies. `ops` is history: what the store has done, in
order. -/
structure Node where
  routes : RoutingTable
  ingressClients : List IngressClient
  egressClients : List EgressClient
  localIdx : Nat
  store : Store
  ops : List Op

/-- The loop that registers the peers and the current node. A peer that cannot
be dialled is left out of the clients; each call of `grpc.NewClient` has its own
outcome. -/
def registerClients (dial : String × Nat → Bool) (nodeIndex : Nat) (node : Node) :
    List (String × Nat) → Node
  | [] => node
  | (addr, i) :: rest =>
      if i = nodeIndex then
        registerClients dial nodeIndex { node with
          localIdx := i
          ingressClients := node.ingressClients ++ [.store]
          egressClients := node.egressClients ++ [.localStoreReader] } rest
      else if dial (addr, i) then
        registerClients dial nodeIndex { node with
          ingressClients := node.ingressClients ++ [.peer (newBatchedIngressClient 100 addr)]
          egressClients := node.egressClients ++ [.peer addr] } rest
      else registerClients dial nodeIndex node rest

def setupRouting (dial : String × Nat → Bool) (nodeAddrs : List String) (store : Store)
    (nodeIndex : Nat) :
    Except String Node := do
  let routes ← newRoutingTable nodeAddrs 1
  return registerClients dial nodeIndex ⟨routes, [], [], 0, store, []⟩ nodeAddrs.zipIdx

namespace Node

def exec (node : Node) (op : Op) : Except Panic Node := do
  let store ← EnvelopeStore.exec node.store op
  return { node with store := store, ops := node.ops ++ [op] }

def putAll (node : Node) : List Envelope → Except Panic Node
  | [] => .ok node
  | e :: batch => do
      let node ← node.exec (.put e e.sourceId)
      node.putAll batch

def clientSend (node : Node) (idx : Nat) (r : SendRequest) : Except Panic Node :=
  match node.ingressClients[idx]? with
  | none => .error .indexOutOfRange
  | some .store => node.putAll r.batch
  | some (.peer b) =>
      .ok { node with ingressClients := node.ingressClients.set idx (.peer (b.send r)) }

def envelopesByNode (lookup : String → List Nat) (batch : List Envelope) :
    SyncMap.Map Nat (List Envelope) :=
  batch.foldl (fun byNode e =>
    (lookup e.sourceId).foldl
      (fun byNode idx => byNode.insert idx ((byNode.lookup idx).getD [] ++ [e])) byNode) ∅

def sendAll (node : Node) : List (Σ _ : Nat, List Envelope) → Except Panic Node
  | [] => .ok node
  | ⟨idx, envelopes⟩ :: rest => do
      let node ← node.clientSend idx ⟨true, some envelopes⟩
      node.sendAll rest

def send (h : Hashing) (order : SyncMap.RangeOrder Nat (List Envelope)) (r : SendRequest)
    (node : Node) :
    Except Panic Node :=
  if r.localOnly then node.clientSend node.localIdx r
  else
    match r.envelopes with
    | none => .error .nilDereference
    | some batch =>
        node.sendAll (order.visit (envelopesByNode (node.routes.lookup h) batch).entries)

end Node

structure Cluster where
  addrs : List String
  nodes : List Node
  inFlight : List (String × SendRequest)

def start (dial : String → Bool) (addrs : List String) (store : Store) : Except String Cluster := do
  let nodes ← (List.range addrs.length).mapM (setupRouting (fun peer => dial peer.1) addrs store)
  return ⟨addrs, nodes, []⟩

inductive Event
  | send (i : Nat) (r : SendRequest) (order : SyncMap.RangeOrder Nat (List Envelope))
  | poll (i k : Nat) (elapsed : Bool)
  | deliver (m : Nat) (order : SyncMap.RangeOrder Nat (List Envelope))
  | truncate (i : Nat) (quantity : Int) (order : SyncMap.RangeOrder String Storage)

namespace Cluster

def atNode (s : Cluster) (i : Nat) (call : Node → Except Panic Node) : Except Stop Cluster :=
  match s.nodes[i]? with
  | none => .error .disabled
  | some node =>
      match call node with
      | .error p => .error (.panic p)
      | .ok node => .ok { s with nodes := s.nodes.set i node }

def poll (s : Cluster) (i k : Nat) (elapsed : Bool) : Except Stop Cluster :=
  match s.nodes[i]? with
  | none => .error .disabled
  | some node =>
      match node.ingressClients[k]? with
      | some (.peer b) =>
          let node := { node with
            ingressClients := node.ingressClients.set k (.peer (b.poll elapsed).1) }
          let sent := (b.poll elapsed).2.map fun r => (b.addr, r)
          .ok { s with nodes := s.nodes.set i node, inFlight := s.inFlight ++ sent }
      | _ => .error .disabled

def deliver (h : Hashing) (s : Cluster) (m : Nat) (order : SyncMap.RangeOrder Nat (List Envelope)) :
    Except Stop Cluster :=
  match s.inFlight[m]? with
  | none => .error .disabled
  | some (addr, r) =>
      { s with inFlight := s.inFlight.eraseIdx m }.atNode (s.addrs.idxOf addr) (Node.send h order r)

end Cluster

def step (h : Hashing) (s : Cluster) : Event → Except Stop Cluster
  | .send i r order => s.atNode i (Node.send h order r)
  | .poll i k elapsed => s.poll i k elapsed
  | .deliver m order => s.deliver h m order
  | .truncate i quantity order => s.atNode i (Node.exec · (.truncate quantity order))

section read

inductive Code
  | unavailable
  | unknown
deriving DecidableEq

abbrev ReadReply := Except Panic (Except (Code × String) (List Envelope))

/-- An error without a status has the code `Unknown`. -/
def localReply (answer : ReadAnswer) : ReadReply :=
  answer.map fun result => result.mapError fun err => (.unknown, err)

/-- `remoteRead` answers for a peer that is not there. -/
def remoteReply : ReadReply → ReadReply
  | .ok (.error (.unavailable, _)) => .ok (.ok [])
  | reply => reply

/-- `EgressReverseProxy.Read` at node `i`, with the nodes that the request
went through. The fuel bounds their number; `draw` is the random choice among
the routes. -/
def Cluster.read (h : Hashing) (compile : Compile) (now : Int64) (draw : Nat) (s : Cluster) :
    Nat → Nat → ReadRequest → Option (List Nat × ReadReply)
  | 0, _, _ => none
  | fuel + 1, i, req =>
      match s.nodes[i]? with
      | none => none
      | some node =>
          let idx := node.routes.lookup h req.sourceId
          if idx = [] then
            some ([i], .ok (.error (.unavailable,
              "failed to find route for request. please try again")))
          else
            let isLocal := node.localIdx ∈ idx
            let target := if isLocal then node.localIdx else idx.getD (draw % idx.length) 0
            match node.egressClients[target]? with
            | none => some ([i], .error .indexOutOfRange)
            | some .localStoreReader =>
                some ([i], localReply (ReadPath.read compile now node.store req))
            | some (.peer addr) =>
                match s.read h compile now draw fuel (s.addrs.idxOf addr) req with
                | none => none
                | some (path, reply) =>
                    some (i :: path, if isLocal then reply else remoteReply reply)

end read

end LogCache.Routing
