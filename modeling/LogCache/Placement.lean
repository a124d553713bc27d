import LogCache.ListSums
import LogCache.Wiring

namespace LogCache.Placement

open Envelopes EnvelopeStore Routing Runs Wiring ListSums

def puts : Op → List Envelope
  | .put e _ => [e]
  | .truncate _ _ => []

def stored (node : Node) : List Envelope := node.ops.flatMap puts

def pending : IngressClient → List Envelope
  | .store => []
  | .peer b => b.batch ++ b.buffer

/-- Client `k` of node `i` is for the node that listens on address `k`. -/
def Leads (addrs : List String) (i k : Nat) : IngressClient → Prop
  | .store => k = i
  | .peer b => k ≠ i ∧ addrs[k]? = some b.addr ∧ b.localOnly = true

/-- Node `i` is wired as it started, and holds only what belongs to it or what
is on its way to the owner. -/
structure Placed (h : Hashing) (addrs : List String) (store : Store) (i : Nat)
    (node : Node) : Prop where
  routes : newRoutingTable addrs 1 = .ok node.routes
  localIdx : node.localIdx = i
  egress : node.egressClients = addrs.zipIdx.map (egressClient i)
  complete : node.ingressClients.length = addrs.length
  ingress : ∀ k client, node.ingressClients[k]? = some client → Leads addrs i k client
  pending : ∀ k client, node.ingressClients[k]? = some client →
    ∀ e ∈ pending client, owner h addrs e.sourceId = k
  stored : ∀ e ∈ stored node, owner h addrs e.sourceId = i
  replay : run exec store node.ops = .ok node.store

def copies (e : Envelope) (node : Node) : Nat :=
  (stored node).count e + (node.ingressClients.map fun client => (pending client).count e).sum

variable {h : Hashing} {addrs : List String} {store : Store} {i : Nat} {node node' : Node}

theorem exec_placed {op : Op} (hn : Placed h addrs store i node)
    (hop : ∀ e ∈ puts op, owner h addrs e.sourceId = i) (hs : node.exec op = .ok node') :
    Placed h addrs store i node' ∧ stored node' = stored node ++ puts op ∧
      node'.ingressClients = node.ingressClients := by
  obtain ⟨store', hexec, hs⟩ := bind_ok hs
  cases hs
  have hstored : (node.ops ++ [op]).flatMap puts = stored node ++ puts op := by
    rw [List.flatMap_append, List.flatMap_cons, List.flatMap_nil, List.append_nil]
    rfl
  refine ⟨⟨hn.routes, hn.localIdx, hn.egress, hn.complete, hn.ingress, hn.pending, ?_,
    run_snoc hn.replay hexec⟩, hstored, rfl⟩
  intro e he
  rw [stored, hstored, List.mem_append] at he
  exact he.elim (hn.stored e) (hop e)

theorem put_placed {e : Envelope} (hn : Placed h addrs store i node)
    (he : owner h addrs e.sourceId = i) (hs : node.exec (.put e e.sourceId) = .ok node') :
    Placed h addrs store i node' ∧ stored node' = stored node ++ [e] ∧
      node'.ingressClients = node.ingressClients := by
  refine exec_placed hn (fun e' he' => ?_) hs
  rw [List.mem_singleton.mp he']
  exact he

theorem putAll_placed {batch : List Envelope} (hn : Placed h addrs store i node)
    (hbatch : ∀ e ∈ batch, owner h addrs e.sourceId = i) (hs : node.putAll batch = .ok node') :
    Placed h addrs store i node' ∧ stored node' = stored node ++ batch ∧
      node'.ingressClients = node.ingressClients := by
  induction batch generalizing node with
  | nil =>
      cases hs
      exact ⟨hn, (List.append_nil _).symm, rfl⟩
  | cons e batch ih =>
      obtain ⟨next, hnext, hs⟩ := bind_ok hs
      obtain ⟨hp, hstored, hclients⟩ := put_placed hn (hbatch e List.mem_cons_self) hnext
      obtain ⟨hp', hstored', hclients'⟩ :=
        ih hp (fun e' he' => hbatch e' (List.mem_cons_of_mem _ he')) hs
      refine ⟨hp', ?_, hclients'.trans hclients⟩
      rw [hstored', hstored, List.append_assoc]
      rfl

theorem copies_set (e : Envelope) {k : Nat} {client : IngressClient}
    (hk : node.ingressClients[k]? = some client) (client' : IngressClient) :
    copies e { node with ingressClients := node.ingressClients.set k client' } + (pending
      client).count e =
      copies e node + (pending client').count e := by
  have hsum := sum_map_set (fun client => (pending client).count e) hk client'
  change (stored node).count e + ((node.ingressClients.set k client').map _).sum + _ = _
  rw [copies]
  omega

theorem set_placed {k : Nat} {b b' : BatchedIngressClient} (hn : Placed h addrs store i node)
    (hb : node.ingressClients[k]? = some (.peer b)) (haddr : b'.addr = b.addr)
    (hlocal : b'.localOnly = b.localOnly)
    (hpending : ∀ e ∈ pending (.peer b'), owner h addrs e.sourceId = k) :
    Placed h addrs store i
      { node with ingressClients := node.ingressClients.set k (.peer b') } := by
  have hset : ∀ k' client, (node.ingressClients.set k (.peer b'))[k']? = some client →
      k' = k ∧ client = .peer b' ∨ node.ingressClients[k']? = some client := by
    intro k' client hk'
    by_cases heq : k' = k
    · subst heq
      rw [List.getElem?_set_self (List.getElem?_eq_some_iff.mp hb).1] at hk'
      exact Or.inl ⟨rfl, (Option.some.inj hk').symm⟩
    · rw [List.getElem?_set_ne (Ne.symm heq)] at hk'
      exact Or.inr hk'
  refine ⟨hn.routes, hn.localIdx, hn.egress, List.length_set.trans hn.complete, ?_, ?_,
    hn.stored, hn.replay⟩
  · intro k' client hk'
    rcases hset k' client hk' with ⟨rfl, rfl⟩ | hk'
    · obtain ⟨hne, ha, hl⟩ := hn.ingress _ _ hb
      exact ⟨hne, haddr ▸ ha, hlocal.trans hl⟩
    · exact hn.ingress k' client hk'
  · intro k' client hk'
    rcases hset k' client hk' with ⟨rfl, rfl⟩ | hk'
    · exact hpending
    · exact hn.pending k' client hk'

theorem clientSend_placed {k : Nat} {r : SendRequest} (hn : Placed h addrs store i node)
    (hr : ∀ e ∈ r.batch, owner h addrs e.sourceId = k) (hs : node.clientSend k r = .ok node') :
    Placed h addrs store i node' ∧ ∀ e, copies e node' = copies e node + r.batch.count e := by
  rw [Node.clientSend] at hs
  split at hs
  · cases hs
  · rename_i hk
    have hki : k = i := hn.ingress k _ hk
    subst hki
    obtain ⟨hp, hstored, hclients⟩ := putAll_placed hn hr hs
    refine ⟨hp, fun e => ?_⟩
    rw [copies, copies, hstored, hclients, List.count_append]
    omega
  · rename_i b hk
    cases hs
    have hmem : ∀ e ∈ pending (.peer (b.send r)), owner h addrs e.sourceId = k := by
      intro e he
      rw [pending, BatchedIngressClient.send] at he
      rcases List.mem_append.mp he with he | he
      · exact hn.pending k _ hk e (List.mem_append_left _ he)
      · rcases List.mem_append.mp he with he | he
        · exact hn.pending k _ hk e (List.mem_append_right _ he)
        · exact hr e he
    refine ⟨set_placed hn hk rfl rfl hmem, fun e => ?_⟩
    have hset := copies_set e hk (.peer (b.send r))
    have hcount : (pending (.peer (b.send r))).count e =
        (pending (.peer b)).count e + r.batch.count e := by
      rw [pending, pending, BatchedIngressClient.send, ← List.append_assoc, List.count_append]
    omega

section groups

variable {f : String → Nat}

def Sorted (f : String → Nat) (byNode : SyncMap.Map Nat (List Envelope)) : Prop :=
  ∀ k es, byNode.lookup k = some es → es ≠ [] ∧ ∀ e ∈ es, f e.sourceId = k

def addTo (byNode : SyncMap.Map Nat (List Envelope)) (k : Nat) (e : Envelope) :
    SyncMap.Map Nat (List Envelope) :=
  byNode.insert k ((byNode.lookup k).getD [] ++ [e])

theorem addTo_sorted {byNode : SyncMap.Map Nat (List Envelope)} (hb : Sorted f byNode)
    (e : Envelope) :
    Sorted f (addTo byNode (f e.sourceId) e) := by
  intro k es hes
  rw [addTo, SyncMap.lookup_insert_eq] at hes
  split_ifs at hes with hk
  · cases hes
    refine ⟨List.append_ne_nil_of_right_ne_nil _ (List.cons_ne_nil _ _), fun e' he' => ?_⟩
    rcases List.mem_append.mp he' with he' | he'
    · cases hl : byNode.lookup (f e.sourceId) with
      | none =>
          rw [hl] at he'
          cases he'
      | some old =>
          rw [hl] at he'
          exact ((hb _ old hl).2 e' he').trans hk.symm
    · rw [List.mem_singleton.mp he', hk]
  · exact hb k es hes

theorem total_addTo (byNode : SyncMap.Map Nat (List Envelope)) (k : Nat) (e x : Envelope) :
    SyncMap.total (List.count x) (addTo byNode k e) =
      SyncMap.total (List.count x) byNode + [e].count x := by
  rw [addTo, SyncMap.total_insert]
  cases hl : byNode.lookup k with
  | none =>
      rw [SyncMap.erase_of_lookup_none hl, Option.getD_none, List.nil_append]
      omega
  | some old =>
      rw [SyncMap.total_of_lookup _ hl, Option.getD_some, List.count_append]
      omega

theorem envelopesByNode_spec {lookup : String → List Nat} (hlookup : ∀ src, lookup src = [f src])
    (batch : List Envelope) : Sorted f (Node.envelopesByNode lookup batch) ∧
      ∀ x, SyncMap.total (List.count x) (Node.envelopesByNode lookup batch) = batch.count x := by
  have hstep : ∀ (byNode : SyncMap.Map Nat (List Envelope)) (e : Envelope),
      (lookup e.sourceId).foldl
      (fun byNode idx => byNode.insert idx ((byNode.lookup idx).getD [] ++ [e])) byNode =
        addTo byNode (f e.sourceId) e := by
    intro byNode e
    rw [hlookup]
    rfl
  have hfold : ∀ byNode, Sorted f byNode →
      Sorted f (batch.foldl (fun byNode e => addTo byNode (f e.sourceId) e) byNode) ∧
      ∀ x, SyncMap.total (List.count x) (batch.foldl
        (fun byNode e => addTo byNode (f e.sourceId) e) byNode) =
        SyncMap.total (List.count x) byNode + batch.count x := by
    induction batch with
    | nil => exact fun byNode hb => ⟨hb, fun x => rfl⟩
    | cons e batch ih =>
        intro byNode hb
        obtain ⟨hsorted, hcount⟩ := ih _ (addTo_sorted hb e)
        refine ⟨hsorted, fun x => ?_⟩
        rw [List.foldl_cons, hcount x, total_addTo, List.count_cons (l := batch),
          List.count_singleton]
        omega
  rw [Node.envelopesByNode]
  simp only [hstep]
  obtain ⟨hsorted, hcount⟩ := hfold ∅ fun k es hes => by cases hes
  refine ⟨hsorted, fun x => ?_⟩
  rw [hcount x, SyncMap.total_empty, Nat.zero_add]

theorem sendAll_placed {groups : List (Σ _ : Nat, List Envelope)} (hn : Placed h addrs store i node)
    (hgroups : ∀ g ∈ groups, ∀ e ∈ g.2, owner h addrs e.sourceId = g.1)
    (hs : node.sendAll groups = .ok node') :
    Placed h addrs store i node' ∧
      ∀ e, copies e node' = copies e node + (groups.map fun g => g.2.count e).sum := by
  induction groups generalizing node with
  | nil =>
      cases hs
      exact ⟨hn, fun e => rfl⟩
  | cons g groups ih =>
      obtain ⟨k, es⟩ := g
      obtain ⟨next, hnext, hs⟩ := bind_ok hs
      have hes : ∀ e ∈ (SendRequest.mk true (some es)).batch, owner h addrs e.sourceId = k :=
        hgroups ⟨k, es⟩ List.mem_cons_self
      obtain ⟨hp, hcopies⟩ := clientSend_placed hn hes hnext
      obtain ⟨hp', hcopies'⟩ := ih hp (fun g hg => hgroups g (List.mem_cons_of_mem _ hg)) hs
      refine ⟨hp', fun e => ?_⟩
      rw [hcopies' e, hcopies e, List.map_cons, List.sum_cons, Nat.add_assoc]
      rfl

end groups

theorem send_placed (hnodup : addrs.Nodup) (hn : Placed h addrs store i node) {r : SendRequest}
    (hr : r.localOnly = false) (order : SyncMap.RangeOrder Nat (List Envelope))
    (hs : node.send h order r = .ok node') :
    Placed h addrs store i node' ∧ ∀ e, copies e node' = copies e node + r.batch.count e := by
  rw [Node.send, hr, if_neg Bool.false_ne_true] at hs
  split at hs
  · cases hs
  · rename_i batch hbatch
    have hlookup := lookup_eq h hnodup hn.routes
    obtain ⟨hsorted, hcount⟩ := envelopesByNode_spec hlookup batch
    have hperm := order.perm (Node.envelopesByNode (node.routes.lookup h) batch).entries
    obtain ⟨hp, hcopies⟩ := sendAll_placed hn
      (fun g hg => (hsorted g.1 g.2 (SyncMap.mem_entries.mp (hperm.mem_iff.mp hg))).2) hs
    refine ⟨hp, fun e => ?_⟩
    rw [hcopies e, (hperm.map _).sum_eq, SendRequest.batch, hbatch]
    exact congrArg _ (hcount e)

theorem send_local (hn : Placed h addrs store i node) {r : SendRequest} (hr : r.localOnly = true)
    (hbatch : ∀ e ∈ r.batch, owner h addrs e.sourceId = i)
    (order : SyncMap.RangeOrder Nat (List Envelope)) (hs : node.send h order r = .ok node') :
    Placed h addrs store i node' ∧ stored node' = stored node ++ r.batch ∧
      node'.ingressClients = node.ingressClients := by
  rw [Node.send, if_pos hr, hn.localIdx, Node.clientSend] at hs
  split at hs
  · cases hs
  · exact putAll_placed hn hbatch hs
  · rename_i b hb
    exact absurd rfl (hn.ingress i _ hb).1

theorem poll_spec (b : BatchedIngressClient) (elapsed : Bool) :
    (b.poll elapsed).1.addr = b.addr ∧ (b.poll elapsed).1.localOnly = b.localOnly ∧
      (∀ r ∈ (b.poll elapsed).2, r.localOnly = b.localOnly) ∧
      pending (.peer b) = (b.poll elapsed).2.flatMap SendRequest.batch ++
        pending (.peer (b.poll elapsed).1) := by
  have hwrite : ∀ b : BatchedIngressClient, b.writeBatch.1.addr = b.addr ∧
      b.writeBatch.1.localOnly = b.localOnly ∧
      (∀ r ∈ b.writeBatch.2, r.localOnly = b.localOnly) ∧
      pending (.peer b) = b.writeBatch.2.flatMap SendRequest.batch ++
        pending (.peer b.writeBatch.1) := by
    intro b
    rw [BatchedIngressClient.writeBatch]
    split
    · exact ⟨rfl, rfl, nofun, rfl⟩
    · refine ⟨rfl, rfl, ?_, ?_⟩
      · intro r hr
        rw [List.mem_singleton.mp hr]
      · rw [List.flatMap_cons, List.flatMap_nil, List.append_nil]
        rfl
  rw [BatchedIngressClient.poll]
  split
  · split_ifs
    · exact hwrite b
    · exact ⟨rfl, rfl, nofun, rfl⟩
  · rename_i e buffer hbuffer
    have hmoved : pending (.peer b) = pending
        (.peer { b with buffer := buffer, batch := b.batch ++ [e] }) := by
      rw [pending, pending, hbuffer, List.append_assoc]
      rfl
    rw [hmoved]
    dsimp only
    split_ifs
    · exact ⟨rfl, rfl, nofun, rfl⟩
    · exact hwrite { b with buffer := buffer, batch := b.batch ++ [e] }

end LogCache.Placement
