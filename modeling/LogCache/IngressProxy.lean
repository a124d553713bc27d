import LogCache.Placement

namespace LogCache.IngressProxy

open Envelopes Routing Placement Runs

section proxy

/-- A client may keep any state, also one that it shares with other clients. -/
abbrev IngressClient (σ : Type) := SendRequest → σ → Except String Unit × σ

structure IngressReverseProxy (σ : Type) where
  clients : List (IngressClient σ)
  localIdx : Nat
  l : String → List Nat

/-- What a call leaves behind: its response, the state of the clients, the
requests to them in their order, and the lines in the log. -/
structure Outcome (σ : Type) where
  response : Except String Unit
  state : σ
  calls : List (Nat × SendRequest)
  log : List String

variable {σ : Type}

def logged : Except String Unit → List String
  | .ok _ => []
  | .error err => ["ingress reverse proxy: failed to write to client: " ++ err]

def sendLoop (clients : List (IngressClient σ)) : Outcome σ → List (Σ _ : Nat, List Envelope) →
    Except Panic (Outcome σ)
  | out, [] => .ok out
  | out, ⟨idx, envelopes⟩ :: rest =>
      match clients[idx]? with
      | none => .error .indexOutOfRange
      | some client =>
          let r : SendRequest := ⟨true, some envelopes⟩
          let (reply, state) := client r out.state
          sendLoop clients { out with
            state := state
            calls := out.calls ++ [(idx, r)]
            log := out.log ++ logged reply } rest

def send (p : IngressReverseProxy σ) (order : SyncMap.RangeOrder Nat (List Envelope))
    (r : SendRequest) (s : σ) :
    Except Panic (Outcome σ) :=
  if r.localOnly then
    match p.clients[p.localIdx]? with
    | none => .error .indexOutOfRange
    | some client =>
        let (reply, state) := client r s
        .ok ⟨reply, state, [(p.localIdx, r)], []⟩
  else
    match r.envelopes with
    | none => .error .nilDereference
    | some batch => sendLoop p.clients ⟨.ok (), s, [], []⟩
      (order.visit (Node.envelopesByNode p.l batch).entries)

end proxy

section groups

variable {l : String → List Nat}

def share (l : String → List Nat) (batch : List Envelope) (i : Nat) : List Envelope :=
  batch.flatMap fun e => List.replicate ((l e.sourceId).count i) e

theorem share_eq_nil {batch : List Envelope} {i : Nat} : share l batch i = [] ↔
    ∀ e ∈ batch, i ∉ l e.sourceId := by
  simp [share, List.flatMap_eq_nil_iff, List.count_eq_zero]

def joined (group : Option (List Envelope)) : List Envelope → Option (List Envelope)
  | [] => group
  | es => some (group.getD [] ++ es)

theorem joined_append (group : Option (List Envelope)) (es es' : List Envelope) :
    joined (joined group es) es' = joined group (es ++ es') := by
  cases es with
  | nil => rfl
  | cons e es =>
      cases es' with
      | nil => rw [List.append_nil, joined]
      | cons e' es' => simp [joined]

theorem lookup_addTo (byNode : SyncMap.Map Nat (List Envelope)) (idx i : Nat) (e : Envelope) :
    (addTo byNode idx e).lookup i = joined (byNode.lookup i)
    (List.replicate ([idx].count i) e) := by
  rw [addTo, SyncMap.lookup_insert_eq]
  split_ifs with h
  · rw [h, List.count_singleton_self]
    rfl
  · rw [List.count_singleton, if_neg (by simpa using Ne.symm h)]
    rfl

theorem lookup_foldl_addTo (byNode : SyncMap.Map Nat (List Envelope)) (e : Envelope)
    (idxs : List Nat) (i : Nat) :
    (idxs.foldl (fun byNode idx => addTo byNode idx e) byNode).lookup i =
      joined (byNode.lookup i) (List.replicate (idxs.count i) e) := by
  induction idxs generalizing byNode with
  | nil => rfl
  | cons idx idxs ih =>
      rw [List.foldl_cons, ih, lookup_addTo, joined_append, List.replicate_append_replicate,
        ← List.count_append]
      rfl

theorem lookup_envelopesByNode (l : String → List Nat) (batch : List Envelope) (i : Nat) :
    (Node.envelopesByNode l batch).lookup i = joined none (share l batch i) := by
  have hloop : ∀ byNode : SyncMap.Map Nat (List Envelope), (batch.foldl (fun byNode e =>
      (l e.sourceId).foldl (fun byNode idx => addTo byNode idx e) byNode) byNode).lookup i =
        joined (byNode.lookup i) (share l batch i) := by
    induction batch with
    | nil => exact fun byNode => rfl
    | cons e batch ih =>
        intro byNode
        rw [List.foldl_cons, ih, lookup_foldl_addTo, joined_append, share, share, List.flatMap_cons]
  exact hloop ∅

end groups

section calls

variable {σ : Type}

def requestsTo (i : Nat) (calls : List (Nat × SendRequest)) : List SendRequest :=
  calls.filterMap fun call => if call.1 = i then some call.2 else none

def callFor (group : Σ _ : Nat, List Envelope) : Nat × SendRequest :=
  (group.1, ⟨true, some group.2⟩)

theorem requestsTo_cons (i : Nat) (call : Nat × SendRequest) (calls : List (Nat × SendRequest)) :
    requestsTo i (call :: calls) = (if call.1 = i then [call.2] else []) ++ requestsTo i calls := by
  rw [requestsTo, List.filterMap_cons]
  split_ifs <;> rfl

theorem requestsTo_callFor (i : Nat) (groups : List (Σ _ : Nat, List Envelope)) :
    requestsTo i (groups.map callFor) = (groups.lookupAll i).map fun envelopes =>
      ⟨true, some envelopes⟩ := by
  induction groups with
  | nil => rfl
  | cons group groups ih =>
      rw [List.map_cons, requestsTo_cons, ih]
      by_cases h : i = group.1
      · subst h
        rw [callFor, if_pos rfl, List.lookupAll_cons_eq groups group.1 group.2]
        rfl
      · rw [callFor, if_neg (Ne.symm h), List.lookupAll_cons_ne groups group h]
        rfl

theorem sendLoop_ok {clients : List (IngressClient σ)} {groups : List (Σ _ : Nat, List Envelope)}
    (hrange : ∀ group ∈ groups, group.1 < clients.length) (out : Outcome σ) :
    ∃ out', sendLoop clients out groups = .ok out' ∧ out'.response = out.response ∧
      out'.calls = out.calls ++ groups.map callFor := by
  induction groups generalizing out with
  | nil => exact ⟨out, rfl, rfl, (List.append_nil _).symm⟩
  | cons group groups ih =>
      obtain ⟨hgroup, hgroups⟩ := List.forall_mem_cons.mp hrange
      rw [sendLoop, List.getElem?_eq_getElem hgroup]
      obtain ⟨out', hloop, hresponse, hcalls⟩ := ih hgroups { out with
        state := (clients[group.1] ⟨true, some group.2⟩ out.state).2
        calls := out.calls ++ [callFor group]
        log := out.log ++ logged (clients[group.1] ⟨true, some group.2⟩ out.state).1 }
      exact ⟨out', hloop, hresponse, by rw [hcalls, List.append_assoc]; rfl⟩

theorem send_of_batch {p : IngressReverseProxy σ} {r : SendRequest} {batch : List Envelope}
    (hlocal : r.localOnly = false) (hbatch : r.envelopes = some batch)
    (hrange : ∀ src, ∀ i ∈ p.l src, i < p.clients.length)
    (order : SyncMap.RangeOrder Nat (List Envelope)) (s : σ) :
    ∃ out, send p order r s = .ok out ∧ out.response = .ok () ∧
      out.calls = (order.visit (Node.envelopesByNode p.l batch).entries).map callFor := by
  have hgroups : ∀ group ∈ order.visit (Node.envelopesByNode p.l batch).entries,
      group.1 < p.clients.length := by
    intro group hgroup
    have hlookup := SyncMap.mem_entries.mp ((order.perm _).mem_iff.mp hgroup)
    rw [lookup_envelopesByNode] at hlookup
    have hne : share p.l batch group.1 ≠ [] := by
      intro hnil
      rw [hnil] at hlookup
      cases hlookup
    rw [Ne, share_eq_nil] at hne
    push Not at hne
    obtain ⟨e, _, hmem⟩ := hne
    exact hrange e.sourceId group.1 hmem
  rw [send, if_neg (by simp [hlocal]), hbatch]
  exact sendLoop_ok hgroups _

theorem requestsTo_visit (l : String → List Nat) (batch : List Envelope)
    (order : SyncMap.RangeOrder Nat (List Envelope)) (i : Nat) :
    requestsTo i ((order.visit (Node.envelopesByNode l batch).entries).map callFor) =
      if ∃ e ∈ batch, i ∈ l e.sourceId then [⟨true, some (share l batch i)⟩] else [] := by
  have hperm := order.perm (Node.envelopesByNode l batch).entries
  have hnodup := (List.perm_nodupKeys hperm).mpr (Node.envelopesByNode l batch).nodupKeys
  have hlookup : (Node.envelopesByNode l batch).entries.dlookup i = joined none (share l batch i) :=
    lookup_envelopesByNode l batch i
  rw [requestsTo_callFor, List.lookupAll_eq_dlookup i hnodup,
    List.perm_dlookup i hnodup hperm, hlookup]
  by_cases hsome : ∃ e ∈ batch, i ∈ l e.sourceId
  · have hne : share l batch i ≠ [] := by
      rw [Ne, share_eq_nil]
      push Not
      exact hsome
    rw [if_pos hsome]
    cases hshare : share l batch i with
    | nil => exact absurd hshare hne
    | cons e es => rfl
  · rw [if_neg hsome, share_eq_nil.mpr fun e he hmem => hsome ⟨e, he, hmem⟩]
    rfl

end calls

section partition

variable {σ : Type}

/-- `Send` succeeds, each client gets its share of the batch, and so it does
with any other clients in their place, whatever these reply. -/
def Partitions (p : IngressReverseProxy σ) (order : SyncMap.RangeOrder Nat (List Envelope))
    (r : SendRequest) (s : σ) :
    Prop :=
  ∃ out, send p order r s = .ok out ∧ out.response = .ok () ∧
    (∀ i, requestsTo i out.calls =
      if ∃ e ∈ r.batch, i ∈ p.l e.sourceId then [⟨true, some (share p.l r.batch i)⟩] else []) ∧
    ∀ (τ : Type) (clients : List (IngressClient τ)) (t : τ), clients.length = p.clients.length →
      ∃ out', send ⟨clients, p.localIdx, p.l⟩ order r t = .ok out' ∧ out'.response = .ok () ∧
        out'.calls = out.calls

/-- `Send` partitions every batch; a request without one it does not survive. -/
theorem send_partitions_iff (p : IngressReverseProxy σ)
    (order : SyncMap.RangeOrder Nat (List Envelope)) (r : SendRequest) (s : σ)
    (hlocal : r.localOnly = false) (hrange : ∀ src, ∀ i ∈ p.l src, i < p.clients.length) :
    Partitions p order r s ↔ r.envelopes ≠ none := by
  constructor
  · rintro ⟨out, hsend, _⟩ hnone
    rw [send, if_neg (by simp [hlocal]), hnone] at hsend
    cases hsend
  · intro hsome
    obtain ⟨batch, hbatch⟩ := Option.ne_none_iff_exists'.mp hsome
    obtain ⟨out, hsend, hresponse, hcalls⟩ := send_of_batch hlocal hbatch hrange order s
    have hr : r.batch = batch := by rw [SendRequest.batch, hbatch, Option.getD_some]
    refine ⟨out, hsend, hresponse, fun i => ?_, fun τ clients t hlength => ?_⟩
    · rw [hcalls, hr]
      exact requestsTo_visit p.l batch order i
    · obtain ⟨out', hsend', hresponse', hcalls'⟩ :=
        @send_of_batch τ ⟨clients, p.localIdx, p.l⟩ r batch hlocal hbatch
        (fun src i hi => (hrange src i hi).trans_eq hlength.symm) order t
      exact ⟨out', hsend', hresponse', hcalls'.trans hcalls.symm⟩

def oneDown : IngressReverseProxy Nat :=
  ⟨[fun _ n => (.error "down", n), fun _ n => (.ok (), n + 1)], 1, fun _ => [0, 1, 1]⟩

theorem send_partitions_one_down : Partitions oneDown .id ⟨false, some [bare 1, bare 2]⟩ 0 := by
  refine (send_partitions_iff oneDown .id ⟨false, some [bare 1, bare 2]⟩ 0 rfl ?_).mpr
    (Option.some_ne_none _)
  intro src i hi
  change i ∈ [0, 1, 1] at hi
  change i < 2
  simp only [List.mem_cons, List.not_mem_nil, or_false] at hi
  omega

/-- A request in which the field is not set. -/
theorem missing_batch_panics :
    send oneDown .id ⟨false, none⟩ 0 = .error .nilDereference ∧
      ¬ Partitions oneDown .id ⟨false, none⟩ 0 := by
  refine ⟨rfl, ?_⟩
  rintro ⟨out, hsend, _⟩
  cases hsend

end partition

section nodes

def proxyOf (h : Hashing) (node : Node) : IngressReverseProxy Unit :=
  ⟨node.ingressClients.map fun _ _ s => (.ok (), s), node.localIdx, node.routes.lookup h⟩

theorem sendAll_eq (node : Node) (groups : List (Σ _ : Nat, List Envelope)) :
    node.sendAll groups = (groups.map callFor).foldlM
      (fun node call => node.clientSend call.1 call.2) node := by
  induction groups generalizing node with
  | nil => rfl
  | cons group groups ih =>
      rw [Node.sendAll, List.map_cons, List.foldlM_cons]
      exact bind_congr fun node' => ih node'

theorem node_send_eq (h : Hashing) (order : SyncMap.RangeOrder Nat (List Envelope))
    (r : SendRequest) (node : Node)
    (hrange : ∀ src, ∀ i ∈ node.routes.lookup h src, i < node.ingressClients.length) :
    node.send h order r = send (proxyOf h node) order r () >>= fun out =>
      out.calls.foldlM (fun node call => node.clientSend call.1 call.2) node := by
  cases hlocal : r.localOnly with
  | true =>
      have hclients : (proxyOf h node).clients[(proxyOf h node).localIdx]? =
          node.ingressClients[node.localIdx]?.map fun _ _ s => (.ok (), s) := List.getElem?_map
      rw [Node.send, if_pos hlocal, send, if_pos hlocal, hclients]
      cases hclient : node.ingressClients[node.localIdx]? with
      | none =>
          rw [Node.clientSend, hclient]
          rfl
      | some client => exact (bind_pure _).symm
  | false =>
      have hnot : ¬ r.localOnly = true := by simp [hlocal]
      rw [Node.send, if_neg hnot]
      cases hbatch : r.envelopes with
      | none =>
          rw [send, if_neg hnot, hbatch]
          rfl
      | some batch =>
          obtain ⟨out, hsend, _, hcalls⟩ := @send_of_batch _ (proxyOf h node) r batch hlocal hbatch
            (fun src i hi => (hrange src i hi).trans_eq (List.length_map _).symm) order ()
          rw [hsend]
          change _ = out.calls.foldlM (fun node call => node.clientSend call.1 call.2) node
          rw [hcalls]
          exact sendAll_eq node _

end nodes

end LogCache.IngressProxy
