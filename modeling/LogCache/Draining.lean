import LogCache.ExactlyOnce
import LogCache.StoreTransitions

namespace LogCache.Draining

open Envelopes EnvelopeStore StoreTransitions Routing Runs Wiring Placement ExactlyOnce ListSums

variable {h : Hashing} {addrs : List String} {store : Store} {s s' : Cluster} {i : Nat}
    {node : Node}

section goes

variable (hroom : 1 ≤ store.config.maxPerSource)

include hroom

theorem put_goes (hn : Placed h addrs store i node) (e : Envelope) (sourceId : String) :
    ∃ node', node.exec (.put e sourceId) = .ok node' := by
  have hconfig : node.store.config = store.config :=
    run_invariant (I := fun t => t.config = store.config)
      (fun _ _ _ hs _ h => (exec_config h).trans hs) rfl
      (along_of_forall (fun _ _ => trivial) store node.ops) hn.replay
  have hsize : ((storageFor node.store sourceId).tree.size : Int) < node.store.config.maxPerSource ∨
      0 < (storageFor node.store sourceId).tree.size := by
    rw [hconfig]
    omega
  obtain ⟨store', hput⟩ := put_ok e hsize
  refine ⟨{ node with store := store', ops := node.ops ++ [.put e sourceId] }, ?_⟩
  change (node.store.put e sourceId >>= _) = _
  rw [hput]
  rfl

theorem putAll_goes (hn : Placed h addrs store i node) {batch : List Envelope}
    (hbatch : ∀ e ∈ batch, owner h addrs e.sourceId = i) :
    ∃ node', node.putAll batch = .ok node' := by
  induction batch generalizing node with
  | nil => exact ⟨node, rfl⟩
  | cons e batch ih =>
      obtain ⟨next, hnext⟩ := put_goes hroom hn e e.sourceId
      have hp := (put_placed hn (hbatch e List.mem_cons_self) hnext).1
      obtain ⟨node', hnode'⟩ := ih hp fun e' he' => hbatch e' (List.mem_cons_of_mem _ he')
      refine ⟨node', ?_⟩
      rw [Node.putAll, hnext]
      exact hnode'

theorem clientSend_goes (hn : Placed h addrs store i node) {k : Nat} (hk : k < addrs.length)
    {r : SendRequest} (hr : ∀ e ∈ r.batch, owner h addrs e.sourceId = k) :
    ∃ node', node.clientSend k r = .ok node' := by
  obtain ⟨client, hclient⟩ : ∃ client, node.ingressClients[k]? = some client :=
    ⟨_, List.getElem?_eq_getElem (hn.complete.symm ▸ hk)⟩
  rw [Node.clientSend, hclient]
  cases client with
  | store =>
      obtain rfl : k = i := hn.ingress k _ hclient
      exact putAll_goes hroom hn hr
  | peer b => exact ⟨_, rfl⟩

theorem sendAll_goes (hn : Placed h addrs store i node) {groups : List (Σ _ : Nat, List Envelope)}
    (hlt : ∀ g ∈ groups, g.1 < addrs.length)
    (hgroups : ∀ g ∈ groups, ∀ e ∈ g.2, owner h addrs e.sourceId = g.1) :
    ∃ node', node.sendAll groups = .ok node' := by
  induction groups generalizing node with
  | nil => exact ⟨node, rfl⟩
  | cons g groups ih =>
      obtain ⟨k, es⟩ := g
      have hes : ∀ e ∈ (SendRequest.mk true (some es)).batch, owner h addrs e.sourceId = k :=
        hgroups ⟨k, es⟩ List.mem_cons_self
      obtain ⟨next, hnext⟩ := clientSend_goes hroom hn (hlt _ List.mem_cons_self) hes
      obtain ⟨node', hnode'⟩ := ih (clientSend_placed hn hes hnext).1
        (fun g hg => hlt g (List.mem_cons_of_mem _ hg)) fun g hg =>
          hgroups g (List.mem_cons_of_mem _ hg)
      refine ⟨node', ?_⟩
      rw [Node.sendAll, hnext]
      exact hnode'

theorem send_goes (hne : addrs ≠ []) (hnodup : addrs.Nodup) (hs : Sound h addrs store s)
    (hi : i < addrs.length) (batch : List Envelope)
    (order : SyncMap.RangeOrder Nat (List Envelope)) :
    ∃ s', step h s (.send i ⟨false, some batch⟩ order) = .ok s' := by
  obtain ⟨node, hnode⟩ := hs.exists_node hi
  have hn := hs.placed i node hnode
  have hsorted := (envelopesByNode_spec (lookup_eq h hnodup hn.routes) batch).1
  have hperm := order.perm (Node.envelopesByNode (node.routes.lookup h) batch).entries
  have hgroup : ∀ g ∈ order.visit (Node.envelopesByNode (node.routes.lookup h) batch).entries,
      g.2 ≠ [] ∧ ∀ e ∈ g.2, owner h addrs e.sourceId = g.1 :=
    fun g hg => hsorted g.1 g.2 (SyncMap.mem_entries.mp (hperm.mem_iff.mp hg))
  obtain ⟨node', hnode'⟩ := sendAll_goes hroom hn (fun g hg => by
    obtain ⟨e, he⟩ := List.exists_mem_of_ne_nil _ (hgroup g hg).1
    rw [← (hgroup g hg).2 e he]
    exact owner_lt h hne _) fun g hg => (hgroup g hg).2
  refine ⟨{ s with nodes := s.nodes.set i node' }, ?_⟩
  change s.atNode i _ = _
  rw [Cluster.atNode, hnode]
  dsimp only
  rw [Node.send, if_neg Bool.false_ne_true]
  dsimp only
  rw [hnode']

theorem deliver_goes (hnodup : addrs.Nodup) (hs : Sound h addrs store s) {m : Nat}
    (hm : m < s.inFlight.length) (order : SyncMap.RangeOrder Nat (List Envelope)) :
    ∃ s', step h s (.deliver m order) = .ok s' := by
  have hget : s.inFlight[m]? = some s.inFlight[m] := List.getElem?_eq_getElem hm
  obtain ⟨hlocal, k, haddr, hbatch⟩ := hs.inFlight _ (List.getElem_mem hm)
  obtain ⟨hlt, hk⟩ := List.getElem?_eq_some_iff.mp haddr
  have hidx : s.addrs.idxOf s.inFlight[m].1 = k := by
    rw [hs.same, ← hk]
    exact hnodup.idxOf_getElem k hlt
  obtain ⟨node, hnode⟩ := hs.exists_node hlt
  have hn := hs.placed k node hnode
  obtain ⟨node', hnode'⟩ := clientSend_goes hroom hn hlt hbatch
  refine ⟨{ s with nodes := s.nodes.set k node', inFlight := s.inFlight.eraseIdx m }, ?_⟩
  change s.deliver h m order = _
  rw [Cluster.deliver, hget]
  dsimp only
  rw [hidx, Cluster.atNode]
  dsimp only
  rw [hnode]
  dsimp only
  rw [Node.send, if_pos hlocal, hn.localIdx, hnode']

end goes

/-- What is left to do: the envelopes that wait, each to be sent and delivered,
and the batches in flight. -/
def work (s : Cluster) : Nat :=
  2 * (s.nodes.map fun node => (node.ingressClients.map fun client =>
    (pending client).length).sum).sum +
    s.inFlight.length

theorem poll_elapsed {b : BatchedIngressClient} (hb : pending (.peer b) ≠ []) :
    (b.poll true).2.length = 1 ∧ (pending (.peer (b.poll true).1)).length <
      (pending (.peer b)).length := by
  have hwrite : ∀ b : BatchedIngressClient, b.batch ≠ [] → b.writeBatch.2.length = 1 ∧
      (pending (.peer b.writeBatch.1)).length < (pending (.peer b)).length := by
    intro b hbatch
    rw [BatchedIngressClient.writeBatch]
    split
    · exact absurd ‹b.batch = []› hbatch
    · refine ⟨rfl, ?_⟩
      rw [pending, pending, List.nil_append, List.length_append]
      exact Nat.lt_add_of_pos_left (List.length_pos_iff.mpr hbatch)
  rw [BatchedIngressClient.poll]
  split
  · rename_i hbuffer
    rw [if_pos rfl]
    apply hwrite
    intro hbatch
    apply hb
    rw [pending, hbatch, hbuffer]
    rfl
  · rename_i e buffer hbuffer
    dsimp only
    rw [if_neg fun hpartial => hpartial.2 rfl]
    have hmoved : pending (.peer b) = pending
        (.peer { b with buffer := buffer, batch := b.batch ++ [e] }) := by
      rw [pending, pending, hbuffer, List.append_assoc]
      rfl
    rw [hmoved]
    exact hwrite _ (List.append_ne_nil_of_right_ne_nil _ (List.cons_ne_nil _ _))

theorem poll_work {k : Nat} {b : BatchedIngressClient} (hnode : s.nodes[i]? = some node)
    (hclient : node.ingressClients[k]? = some (.peer b)) (hb : pending (.peer b) ≠ []) :
    ∃ s', step h s (.poll i k true) = .ok s' ∧ work s' < work s := by
  obtain ⟨hlen, hless⟩ := poll_elapsed hb
  have hclients :=
    sum_map_set (fun client => (pending client).length) hclient (.peer (b.poll true).1)
  have hnodes := sum_map_set (fun node : Node =>
      (node.ingressClients.map fun client => (pending client).length).sum)
    hnode { node with ingressClients := node.ingressClients.set k (.peer (b.poll true).1) }
  refine ⟨{ s with
    nodes := s.nodes.set i
      { node with ingressClients := node.ingressClients.set k (.peer (b.poll true).1) }
    inFlight := s.inFlight ++ (b.poll true).2.map fun r => (b.addr, r) }, ?_, ?_⟩
  · change s.poll i k true = _
    rw [Cluster.poll, hnode]
    dsimp only
    rw [hclient]
  · rw [work, work]
    dsimp only at hnodes ⊢
    rw [List.length_append, List.length_map, hlen]
    omega

theorem deliver_work {m : Nat} {order : SyncMap.RangeOrder Nat (List Envelope)}
    (hnodup : addrs.Nodup) (hs : Sound h addrs store s)
    (hd : step h s (.deliver m order) = .ok s') : work s' < work s := by
  obtain ⟨addr, r, i, node, node', hm, hnode, _, _, hclients, rfl⟩ := deliver_ok hnodup hs hd
  have hnodes := sum_map_set (fun node : Node =>
      (node.ingressClients.map fun client => (pending client).length).sum)
    hnode node'
  have hlt := (List.getElem?_eq_some_iff.mp hm).1
  rw [work, work]
  dsimp only at hnodes ⊢
  rw [hclients] at hnodes
  rw [List.length_eraseIdx_of_lt hlt]
  omega

theorem forwards (hroom : 1 ≤ store.config.maxPerSource) (hnodup : addrs.Nodup)
    (hs : Sound h addrs store s) (hd : ¬ Drained s) :
    ∃ event s', accepted event = [] ∧ FromOutside event ∧ step h s event = .ok s' ∧
      work s' < work s := by
  by_cases hflight : s.inFlight = []
  · have hwaiting : ∃ node ∈ s.nodes, ∃ client ∈ node.ingressClients, pending client ≠ [] := by
      by_contra hnone
      push Not at hnone
      exact hd ⟨hflight, hnone⟩
    obtain ⟨node, hnode, client, hclient, hpending⟩ := hwaiting
    obtain ⟨i, hi⟩ := List.mem_iff_getElem?.mp hnode
    obtain ⟨k, hk⟩ := List.mem_iff_getElem?.mp hclient
    cases client with
    | store => exact absurd rfl hpending
    | peer b =>
        obtain ⟨s', hstep, hless⟩ := poll_work (h := h) hi hk hpending
        exact ⟨.poll i k true, s', rfl, trivial, hstep, hless⟩
  · obtain ⟨s', hstep⟩ := deliver_goes hroom hnodup hs (List.length_pos_iff.mpr hflight) .id
    exact ⟨.deliver 0 .id, s', rfl, trivial, hstep, deliver_work hnodup hs hstep⟩

theorem drains (hroom : 1 ≤ store.config.maxPerSource) (hnodup : addrs.Nodup)
    (hs : Sound h addrs store s) :
    ∃ events s', (∀ event ∈ events, accepted event = []) ∧ run (step h) s events = .ok s' ∧
      Drained s' := by
  induction hn : work s using Nat.strong_induction_on generalizing s with
  | _ n ih =>
      by_cases hd : Drained s
      · exact ⟨[], s, nofun, rfl, hd⟩
      · obtain ⟨event, t, hnone, hout, hstep, hless⟩ := forwards hroom hnodup hs hd
        obtain ⟨events, s', hevents, hrun, hd'⟩ :=
          ih (work t) (hn ▸ hless) (step_sound hnodup hs hout hstep).1 rfl
        refine ⟨event :: events, s', List.forall_mem_cons.mpr ⟨hnone, hevents⟩, ?_, hd'⟩
        rw [run_cons_of_ok hstep]
        exact hrun

end LogCache.Draining
