import LogCache.Draining

namespace LogCache.ClusterDelivery

open Envelopes EnvelopeStore ReadPath Routing Runs Wiring Placement ExactlyOnce Draining

variable {h : Hashing} {addrs : List String} {store : Store} {s : Cluster} {i : Nat} {node : Node}

section read

variable {compile : Compile} {now : Int64} {draw : Nat} {req : ReadRequest}

theorem remoteReply_localReply (answer : ReadAnswer) :
    remoteReply (localReply answer) = localReply answer := by
  rcases answer with p | err | envelopes <;> rfl

theorem egress_eq (hn : Placed h addrs store i node) {k : Nat} {addr : String}
    (hk : addrs[k]? = some addr) :
    node.egressClients[k]? = some (egressClient i (addr, k)) := by
  rw [hn.egress, List.getElem?_map, List.getElem?_zipIdx, Nat.zero_add, hk]
  rfl

theorem read_local (hnodup : addrs.Nodup) (hs : Sound h addrs store s)
    (hi : s.nodes[i]? = some node) (howner : owner h addrs req.sourceId = i) (fuel : Nat) :
    s.read h compile now draw (fuel + 1) i req =
      some ([i], localReply (ReadPath.read compile now node.store req)) := by
  have hn := hs.placed i node hi
  have hlt : i < addrs.length := hs.nodes ▸ (List.getElem?_eq_some_iff.mp hi).1
  have hclient := egress_eq hn (List.getElem?_eq_getElem hlt)
  rw [egressClient, if_pos rfl] at hclient
  rw [Cluster.read, hi]
  dsimp only
  rw [lookup_eq h hnodup hn.routes, howner, hn.localIdx, if_neg (List.cons_ne_nil _ _),
    if_pos (List.mem_singleton_self i), hclient]

theorem read_remote (hnodup : addrs.Nodup) (hs : Sound h addrs store s) {other : Node}
    (hi : s.nodes[i]? = some other) (howner : s.nodes[owner h addrs req.sourceId]? = some node)
    (hne : owner h addrs req.sourceId ≠ i) (fuel : Nat) :
    s.read h compile now draw (fuel + 2) i req =
      some ([i, owner h addrs req.sourceId], localReply
        (ReadPath.read compile now node.store req)) := by
  have hn := hs.placed i other hi
  have hlt : owner h addrs req.sourceId < addrs.length :=
    hs.nodes ▸ (List.getElem?_eq_some_iff.mp howner).1
  have hclient := egress_eq hn (List.getElem?_eq_getElem hlt)
  rw [egressClient, if_neg hne] at hclient
  have hnot : i ∉ [owner h addrs req.sourceId] := fun hmem => hne (List.mem_singleton.mp hmem).symm
  rw [Cluster.read, hi]
  dsimp only
  rw [lookup_eq h hnodup hn.routes, hn.localIdx, if_neg (List.cons_ne_nil _ _), if_neg hnot,
    List.length_singleton, Nat.mod_one, List.getD_cons_zero, hclient]
  dsimp only
  rw [hs.same, hnodup.idxOf_getElem _ hlt, read_local hnodup hs howner rfl fuel]
  dsimp only
  rw [if_neg hnot, remoteReply_localReply]

theorem read_eq (hnodup : addrs.Nodup) (hs : Sound h addrs store s) (hi : i < addrs.length)
    (howner : s.nodes[owner h addrs req.sourceId]? = some node) (fuel : Nat) :
    s.read h compile now draw (fuel + 2) i req =
      some (if owner h addrs req.sourceId = i then [i] else [i, owner h addrs req.sourceId],
        localReply (ReadPath.read compile now node.store req)) := by
  split_ifs with heq
  · subst heq
    exact read_local hnodup hs howner rfl (fuel + 1)
  · exact read_remote hnodup hs (List.getElem?_eq_getElem (hs.nodes.symm ▸ hi)) howner heq fuel

end read

/-- Once everything is forwarded, each node has put the envelopes that it owns,
each as often as it was sent, and no others. Batches are not forwarded twice,
and a Read at any node is answered from the store of the owner. A store with
room for an envelope per source takes every Send that has a batch, and
everything can be forwarded. -/
theorem delivers_exactly_once (h : Hashing) (dial : String → Bool) (addrs : List String)
    (hne : addrs ≠ []) (hdistinct : addrs.Nodup) (hdial : ∀ addr ∈ addrs, dial addr = true)
    (maxPerSource prunesPerGC : Int) :
    ∃ cluster, start dial addrs (newStore maxPerSource prunesPerGC) = .ok cluster ∧
      ∀ events, (∀ event ∈ events, FromOutside event) → ∀ s, run (step h) cluster events = .ok s →
        s.nodes.length = addrs.length ∧
        (∀ node ∈ s.nodes, ∀ sourceId, node.routes.lookup h sourceId = [owner h addrs sourceId]) ∧
        (∀ sourceId, owner h addrs sourceId < addrs.length) ∧
        (∀ node ∈ s.nodes, run exec (newStore maxPerSource prunesPerGC) node.ops = .ok node.store) ∧
        (Drained s → ∀ i node, s.nodes[i]? = some node →
          (stored node).Perm ((events.flatMap accepted).filter fun e =>
            owner h addrs e.sourceId = i)) ∧
        (∀ m order s', step h s (.deliver m order) = .ok s' → s'.inFlight = s.inFlight.eraseIdx m ∧
          s'.nodes.map Node.ingressClients = s.nodes.map Node.ingressClients) ∧
        (∀ i, i < addrs.length → ∀ req compile now draw fuel node,
          s.nodes[owner h addrs req.sourceId]? = some node →
          s.read h compile now draw (fuel + 2) i req =
            some (if owner h addrs req.sourceId = i then [i] else [i, owner h addrs req.sourceId],
              localReply (ReadPath.read compile now node.store req))) ∧
        (1 ≤ maxPerSource →
          (∀ i, i < addrs.length → ∀ batch order, ∃ s',
            step h s (.send i ⟨false, some batch⟩ order) = .ok s') ∧
          ∃ rest s', (∀ event ∈ rest, accepted event = []) ∧ run (step h) s rest = .ok s' ∧
            Drained s') := by
  obtain ⟨routes, hroutes⟩ := newRoutingTable_ok hne
  refine ⟨_, start_eq hdial hroutes _, fun events hout s hrun => ?_⟩
  have hsound : ∀ e, Sound h addrs (newStore maxPerSource prunesPerGC) s ∧
      total e s = (events.flatMap accepted).count e := by
    intro e
    obtain ⟨hs, htotal⟩ := run_measure (f := total e) (g := fun event => (accepted event).count e)
      (fun _ _ _ hI hP hstep => ⟨(step_sound hdistinct hI hP hstep).1,
        (step_sound hdistinct hI hP hstep).2 e⟩)
      (start_sound hroutes) hout hrun
    refine ⟨hs, htotal.trans ?_⟩
    rw [total_start, Nat.zero_add, List.count_flatMap]
    rfl
  have hs := (hsound (bare 0)).1
  refine ⟨hs.nodes, ?_, owner_lt h hne, ?_, ?_, ?_, ?_, ?_⟩
  · intro node hnode
    obtain ⟨i, hi⟩ := List.mem_iff_getElem?.mp hnode
    exact lookup_eq h hdistinct (hs.placed i node hi).routes
  · intro node hnode
    obtain ⟨i, hi⟩ := List.mem_iff_getElem?.mp hnode
    exact (hs.placed i node hi).replay
  · exact fun hd i node hi => stored_perm hs hd hi fun e => (hsound e).2
  · intro m order s' hd
    obtain ⟨addr, r, i, node, node', _, hnode, _, _, hclients, rfl⟩ := deliver_ok hdistinct hs hd
    refine ⟨rfl, ?_⟩
    have hsame : (s.nodes.map Node.ingressClients)[i]? = some node.ingressClients := by
      rw [List.getElem?_map, hnode]
      rfl
    obtain ⟨hlt, heq⟩ := List.getElem?_eq_some_iff.mp hsame
    dsimp only
    rw [List.map_set, hclients, ← heq]
    exact List.set_getElem_self hlt
  · exact fun i hi req compile now draw fuel node howner => read_eq hdistinct hs hi howner fuel
  · intro hmax
    exact ⟨fun i hi batch order => send_goes hmax hne hdistinct hs hi batch order,
      drains hmax hdistinct hs⟩

def forApp : Envelope := { bare 1 with sourceId := "app" }

def oneForward : List Event := [.send 0 ⟨false, some [forApp]⟩ .id, .poll 0 1 true, .deliver 0 .id]

theorem delivers_exactly_once_two_nodes :
    ∃ cluster s, start (fun _ => true) ["a", "b"] (newStore 10 1) = .ok cluster ∧
      run (step byLength) cluster oneForward = .ok s ∧ Drained s ∧
      ∀ node, s.nodes[1]? = some node → (stored node).Perm [forApp] := by
  obtain ⟨cluster, hstart, hall⟩ :=
    delivers_exactly_once byLength (fun _ => true) ["a", "b"] (by decide) (by decide)
    (fun _ _ => rfl) 10 1
  obtain ⟨s, hrun, hd⟩ : ∃ s, run (step byLength) cluster oneForward = .ok s ∧ Drained s := by
    cases hstart
    exact exists_of_ends (by decide +kernel)
  have hout : ∀ event ∈ oneForward, FromOutside event := by
    intro event hevent
    simp only [oneForward, List.mem_cons, List.not_mem_nil, or_false] at hevent
    rcases hevent with rfl | rfl | rfl
    · rfl
    · trivial
    · trivial
  exact ⟨cluster, s, hstart, hrun, hd, fun node hnode =>
    (hall oneForward hout s hrun).2.2.2.2.1 hd 1 node hnode⟩

end LogCache.ClusterDelivery
