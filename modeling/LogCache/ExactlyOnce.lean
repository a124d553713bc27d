import LogCache.Placement

namespace LogCache.ExactlyOnce

open Envelopes EnvelopeStore Routing Runs Wiring Placement ListSums

/-- A batch in flight is on its way to the owner of its envelopes, and is not
to be forwarded from there. -/
def Addressed (h : Hashing) (addrs : List String) (m : String × SendRequest) : Prop :=
  m.2.localOnly = true ∧ ∃ k, addrs[k]? = some m.1 ∧ ∀ e ∈ m.2.batch, owner h addrs e.sourceId = k

structure Sound (h : Hashing) (addrs : List String) (store : Store) (s : Cluster) : Prop where
  same : s.addrs = addrs
  nodes : s.nodes.length = addrs.length
  placed : ∀ i node, s.nodes[i]? = some node → Placed h addrs store i node
  inFlight : ∀ m ∈ s.inFlight, Addressed h addrs m

def total (e : Envelope) (s : Cluster) : Nat :=
  (s.nodes.map (copies e)).sum + (s.inFlight.map fun m => m.2.batch.count e).sum

def accepted : Event → List Envelope
  | .send _ r _ => r.batch
  | _ => []

def FromOutside : Event → Prop
  | .send _ r _ => r.localOnly = false
  | _ => True

variable {h : Hashing} {addrs : List String} {store : Store} {s s' : Cluster}

theorem atNode_ok {i : Nat} {call : Node → Except Panic Node} (hs : s.atNode i call = .ok s') :
    ∃ node node', s.nodes[i]? = some node ∧ call node = .ok node' ∧
      s' = { s with nodes := s.nodes.set i node' } := by
  rw [Cluster.atNode] at hs
  split at hs
  · cases hs
  · rename_i node hnode
    split at hs
    · cases hs
    · rename_i node' hcall
      cases hs
      exact ⟨node, node', hnode, hcall, rfl⟩

theorem Sound.exists_node (hs : Sound h addrs store s) {i : Nat} (hi : i < addrs.length) :
    ∃ node, s.nodes[i]? = some node :=
  ⟨_, List.getElem?_eq_getElem (hs.nodes.symm ▸ hi)⟩

theorem Sound.set {i : Nat} {node node' : Node} (hs : Sound h addrs store s)
    (hi : s.nodes[i]? = some node) (hn : Placed h addrs store i node') :
    Sound h addrs store { s with nodes := s.nodes.set i node' } := by
  refine ⟨hs.same, (List.length_set).trans hs.nodes, ?_, hs.inFlight⟩
  intro k n hk
  by_cases heq : k = i
  · subst heq
    rw [List.getElem?_set_self (List.getElem?_eq_some_iff.mp hi).1] at hk
    cases hk
    exact hn
  · rw [List.getElem?_set_ne (Ne.symm heq)] at hk
    exact hs.placed k n hk

theorem deliver_ok (hnodup : addrs.Nodup) (hs : Sound h addrs store s) {m : Nat}
    {order : SyncMap.RangeOrder Nat (List Envelope)} (hd : s.deliver h m order = .ok s') :
    ∃ addr r i node node', s.inFlight[m]? = some (addr, r) ∧ s.nodes[i]? = some node ∧
      Placed h addrs store i node' ∧ stored node' = stored node ++ r.batch ∧
      node'.ingressClients = node.ingressClients ∧
      s' = { s with nodes := s.nodes.set i node', inFlight := s.inFlight.eraseIdx m } := by
  rw [Cluster.deliver] at hd
  split at hd
  · cases hd
  · rename_i addr r hm
    obtain ⟨hlocal, k, haddr, hbatch⟩ := hs.inFlight _ (List.mem_of_getElem? hm)
    have hk : s.addrs.idxOf addr = k := by
      obtain ⟨hlt, rfl⟩ := List.getElem?_eq_some_iff.mp haddr
      rw [hs.same]
      exact hnodup.idxOf_getElem k hlt
    obtain ⟨node, node', hnode, hsend, rfl⟩ := atNode_ok hd
    rw [hk] at hnode
    obtain ⟨hp, hstored, hclients⟩ := send_local (hs.placed k node hnode) hlocal hbatch order hsend
    exact ⟨addr, r, k, node, node', hm, hnode, hp, hstored, hclients, by rw [hk]⟩

theorem deliver_sound (hnodup : addrs.Nodup) (hs : Sound h addrs store s) {m : Nat}
    {order : SyncMap.RangeOrder Nat (List Envelope)} (hd : s.deliver h m order = .ok s') :
    Sound h addrs store s' ∧ ∀ e, total e s' = total e s := by
  obtain ⟨addr, r, i, node, node', hm, hnode, hp, hstored, hclients, rfl⟩ := deliver_ok hnodup hs hd
  have hset := hs.set hnode hp
  refine ⟨⟨hs.same, hset.nodes, hset.placed, fun x hx =>
    hs.inFlight x (List.mem_of_mem_eraseIdx hx)⟩, fun e => ?_⟩
  have hnodes := sum_map_set (copies e) hnode node'
  have hflight := sum_map_eraseIdx (fun m : String × SendRequest => m.2.batch.count e) hm
  have hcopies : copies e node' = copies e node + r.batch.count e := by
    rw [copies, copies, hstored, hclients, List.count_append]
    omega
  rw [total, total]
  dsimp only at hflight ⊢
  omega

theorem poll_sound (hs : Sound h addrs store s) {i k : Nat} {elapsed : Bool}
    (hp : s.poll i k elapsed = .ok s') :
    Sound h addrs store s' ∧ ∀ e, total e s' = total e s := by
  rw [Cluster.poll] at hp
  split at hp
  · cases hp
  · rename_i node hnode
    split at hp
    · rename_i b hb
      cases hp
      obtain ⟨haddr, hlocal, hrequests, hpending⟩ := poll_spec b elapsed
      have hn := hs.placed i node hnode
      have howner := hn.pending k _ hb
      rw [hpending] at howner
      obtain ⟨_, hpeer, hforwards⟩ := hn.ingress k _ hb
      have hset := hs.set hnode (set_placed hn hb haddr hlocal fun e he =>
          howner e (List.mem_append_right _ he))
      refine ⟨⟨hs.same, hset.nodes, hset.placed, ?_⟩, fun e => ?_⟩
      · intro m hm
        rcases List.mem_append.mp hm with hm | hm
        · exact hs.inFlight m hm
        · obtain ⟨r, hr, rfl⟩ := List.mem_map.mp hm
          refine ⟨(hrequests r hr).trans hforwards, k, hpeer,
            fun e he => howner e (List.mem_append_left _ ?_)⟩
          exact List.mem_flatMap.mpr ⟨r, hr, he⟩
      · have hclients := copies_set e hb (.peer (b.poll elapsed).1)
        have hnodes := sum_map_set (copies e) hnode
          { node with ingressClients := node.ingressClients.set k (.peer (b.poll elapsed).1) }
        have hcount := congrArg (List.count e) hpending
        rw [List.count_append, List.count_flatMap] at hcount
        rw [total, total, List.map_append, List.sum_append, List.map_map]
        change ((s.nodes.set i _).map _).sum + (_ + ((b.poll elapsed).2.map
          (List.count e ∘ SendRequest.batch)).sum) = _
        omega
    · cases hp

theorem step_sound (hnodup : addrs.Nodup) {event : Event} (hs : Sound h addrs store s)
    (hout : FromOutside event) (hstep : step h s event = .ok s') :
    Sound h addrs store s' ∧ ∀ e, total e s' = total e s + (accepted event).count e := by
  cases event with
  | send i r order =>
      obtain ⟨node, node', hnode, hsend, rfl⟩ := atNode_ok hstep
      obtain ⟨hp, hcopies⟩ := send_placed hnodup (hs.placed i node hnode) hout order hsend
      refine ⟨hs.set hnode hp, fun e => ?_⟩
      have hnodes := sum_map_set (copies e) hnode node'
      have hsent := hcopies e
      rw [total, total, accepted]
      dsimp only
      omega
  | poll i k elapsed => exact poll_sound hs hstep
  | deliver m order => exact deliver_sound hnodup hs hstep
  | truncate i quantity order =>
      obtain ⟨node, node', hnode, hexec, rfl⟩ := atNode_ok hstep
      obtain ⟨hp, hstored, hclients⟩ :=
        exec_placed (hs.placed i node hnode) (fun e he => by cases he) hexec
      refine ⟨hs.set hnode hp, fun e => ?_⟩
      have hnodes := sum_map_set (copies e) hnode node'
      have hcopies : copies e node' = copies e node := by
        rw [copies, copies, hstored, hclients]
        exact congrArg (List.count e · + _) (List.append_nil _)
      have hnone : (accepted (.truncate i quantity order)).count e = 0 := rfl
      rw [total, total]
      dsimp only
      omega

section start

variable {routes : RoutingTable}

theorem pending_ingressClient (i : Nat) (addr : String × Nat) :
    pending (ingressClient i addr) = [] := by
  rw [ingressClient]
  split_ifs <;> rfl

theorem freshNode_placed (hroutes : newRoutingTable addrs 1 = .ok routes) (i : Nat) :
    Placed h addrs store i (freshNode addrs routes store i) := by
  have hclient : ∀ k client, (addrs.zipIdx.map (ingressClient i))[k]? = some client →
      ∃ addr, addrs[k]? = some addr ∧ client = ingressClient i (addr, k) := by
    intro k client hk
    rw [List.getElem?_map, List.getElem?_zipIdx, Nat.zero_add] at hk
    cases haddr : addrs[k]? with
    | none =>
        rw [haddr] at hk
        cases hk
    | some addr =>
        rw [haddr] at hk
        cases hk
        exact ⟨addr, rfl, rfl⟩
  refine ⟨hroutes, rfl, rfl, ?_, ?_, ?_, nofun, rfl⟩
  · exact (List.length_map _).trans List.length_zipIdx
  · intro k client hk
    obtain ⟨addr, haddr, rfl⟩ := hclient k client hk
    rw [ingressClient]
    split_ifs with hki
    · exact hki
    · exact ⟨hki, haddr, rfl⟩
  · intro k client hk e he
    obtain ⟨addr, _, rfl⟩ := hclient k client hk
    rw [pending_ingressClient] at he
    cases he

theorem start_sound (hroutes : newRoutingTable addrs 1 = .ok routes) :
    Sound h addrs store ⟨addrs, (List.range addrs.length).map
      (freshNode addrs routes store), []⟩ := by
  refine ⟨rfl, ?_, ?_, nofun⟩
  · rw [List.length_map, List.length_range]
  · intro i node hi
    rw [List.getElem?_map] at hi
    obtain ⟨k, hk, rfl⟩ := Option.map_eq_some_iff.mp hi
    obtain ⟨hlt, rfl⟩ := List.getElem?_eq_some_iff.mp hk
    rw [List.getElem_range]
    exact freshNode_placed hroutes i

theorem total_start (e : Envelope) :
    total e ⟨addrs, (List.range addrs.length).map (freshNode addrs routes store), []⟩ = 0 := by
  have hfresh : ∀ i, copies e (freshNode addrs routes store i) = 0 := by
    intro i
    change 0 + ((addrs.zipIdx.map (ingressClient i)).map _).sum = 0
    rw [Nat.zero_add, List.map_map]
    apply List.sum_eq_zero
    intro n hn
    obtain ⟨addr, _, rfl⟩ := List.mem_map.mp hn
    rw [Function.comp_apply, pending_ingressClient]
    rfl
  rw [total, List.map_map]
  change _ + 0 = 0
  rw [Nat.add_zero]
  apply List.sum_eq_zero
  intro n hn
  obtain ⟨i, _, rfl⟩ := List.mem_map.mp hn
  exact hfresh i

end start

def Drained (s : Cluster) : Prop :=
  s.inFlight = [] ∧ ∀ node ∈ s.nodes, ∀ client ∈ node.ingressClients, pending client = []

instance (s : Cluster) : Decidable (Drained s) := inferInstanceAs (Decidable (_ ∧ _))

theorem total_of_drained (hs : Sound h addrs store s) (hd : Drained s) {i : Nat} {node : Node}
    (hi : s.nodes[i]? = some node) {e : Envelope} (he : owner h addrs e.sourceId = i) :
    total e s = (stored node).count e := by
  have hcopies : ∀ node ∈ s.nodes, copies e node = (stored node).count e := by
    intro node hnode
    rw [copies, List.sum_eq_zero, Nat.add_zero]
    intro n hn
    obtain ⟨client, hclient, rfl⟩ := List.mem_map.mp hn
    rw [hd.2 node hnode client hclient]
    rfl
  rw [total, hd.1, ← hcopies node (List.mem_of_getElem? hi)]
  refine (Nat.add_zero _).trans (sum_map_eq_single (copies e) hi fun k other hk hne => ?_)
  rw [hcopies other (List.mem_of_getElem? hk)]
  apply List.count_eq_zero.mpr
  intro hmem
  exact hne (((hs.placed k other hk).stored e hmem).symm.trans he)

theorem stored_perm (hs : Sound h addrs store s) (hd : Drained s) {i : Nat} {node : Node}
    (hi : s.nodes[i]? = some node) {sent : List Envelope} (hsent : ∀ e, total e s = sent.count e) :
    (stored node).Perm (sent.filter fun e => owner h addrs e.sourceId = i) := by
  apply List.perm_iff_count.mpr
  intro e
  by_cases he : owner h addrs e.sourceId = i
  · have howned : (sent.filter fun e => owner h addrs e.sourceId = i).count e = sent.count e :=
      List.count_filter (decide_eq_true he)
    rw [howned, ← hsent, total_of_drained hs hd hi he]
  · rw [List.count_eq_zero.mpr, List.count_eq_zero.mpr]
    · intro hmem
      exact he (of_decide_eq_true (List.mem_filter.mp hmem).2)
    · intro hmem
      exact he ((hs.placed i node hi).stored e hmem)

end LogCache.ExactlyOnce
