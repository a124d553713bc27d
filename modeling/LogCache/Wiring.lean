import LogCache.Routing

namespace LogCache.Wiring

open Envelopes EnvelopeStore Routing Runs

variable {addrs : List String} {i : Nat}

def owner (h : Hashing) (addrs : List String) (sourceId : String) : Nat :=
  h.hash addrs.length (h.sum64String sourceId)

def byLength : Hashing where
  sum64String item := item.length.toUInt64
  hash n key := key.toNat % n
  hash_lt _ hn := Nat.mod_lt _ hn

section routingTable

theorem length_insertAll (xs : List (String × Nat)) (m : SyncMap.Map String Nat)
    (hxs : (xs.map Prod.fst).Nodup) (hm : ∀ x ∈ xs, x.1 ∉ m) :
    (xs.foldl (fun m x => m.insert x.1 x.2) m).entries.length = m.entries.length + xs.length := by
  induction xs generalizing m with
  | nil => rfl
  | cons x xs ih =>
      rw [List.map_cons, List.nodup_cons] at hxs
      have hfresh : x.1 ∉ m := hm x List.mem_cons_self
      have hins : (m.insert x.1 x.2).entries = ⟨x.1, x.2⟩ :: m.entries :=
        AList.entries_insert_of_notMem hfresh
      rw [List.foldl_cons, ih _ hxs.2, hins, List.length_cons, List.length_cons]
      · omega
      · intro y hy hmem
        rcases (AList.mem_insert _).mp hmem with heq | hmem
        · exact hxs.1 (heq ▸ List.mem_map_of_mem hy)
        · exact hm y (List.mem_cons_of_mem _ hy) hmem

theorem newRoutingTable_ok (hne : addrs ≠ []) : ∃ t, newRoutingTable addrs 1 = .ok t := by
  have hpos : 0 < addrs.length := List.length_pos_iff.mpr hne
  rw [newRoutingTable, if_neg Nat.one_ne_zero, if_neg (by omega)]
  exact ⟨_, rfl⟩

theorem owner_lt (h : Hashing) (hne : addrs ≠ []) (sourceId : String) :
    owner h addrs sourceId < addrs.length :=
  h.hash_lt _ (List.length_pos_iff.mpr hne)

theorem lookup_lt (h : Hashing) {t : RoutingTable} (ht : newRoutingTable addrs 1 = .ok t)
    (sourceId : String) :
    ∀ k ∈ t.lookup h sourceId, k < addrs.length := by
  have hne : addrs ≠ [] := by
    rintro rfl
    cases ht
  have hpos : 0 < addrs.length := List.length_pos_iff.mpr hne
  rw [newRoutingTable, if_neg Nat.one_ne_zero, if_neg (by omega)] at ht
  cases ht
  have hown := owner_lt h hne sourceId
  rw [owner] at hown
  intro k hk
  rw [RoutingTable.lookup] at hk
  dsimp only at hk
  rw [Nat.max_eq_left hpos, List.filter_nil, List.map_nil, List.append_nil, List.range_one,
    List.map_singleton, List.mem_singleton, Nat.zero_mul, Nat.add_zero] at hk
  exact hk ▸ (Nat.mod_le _ _).trans_lt hown

theorem lookup_stride (h : Hashing) (hnodup : addrs.Nodup) {replicationFactor : Nat}
    {t : RoutingTable} (ht : newRoutingTable addrs replicationFactor = .ok t) (sourceId : String) :
    t.lookup h sourceId = (List.range replicationFactor).map fun n =>
      (owner h addrs sourceId + n * replicationFactor) % addrs.length := by
  rw [newRoutingTable] at ht
  split_ifs at ht with hzero hlen
  cases ht
  have hpos : 0 < addrs.length := by omega
  have hsize : (addrs.zipIdx.foldl (fun addresses addr => addresses.insert addr.1 addr.2)
      (∅ : SyncMap.Map String Nat)).entries.length = addrs.length := by
    rw [length_insertAll]
    · rw [List.length_zipIdx]
      exact Nat.zero_add _
    · rw [List.zipIdx_map_fst]
      exact hnodup
    · exact fun _ _ => AList.notMem_empty _
  rw [RoutingTable.lookup]
  dsimp only
  rw [hsize, Nat.max_eq_left hpos, List.filter_nil, List.map_nil, List.append_nil]
  rfl

theorem lookup_eq (h : Hashing) (hnodup : addrs.Nodup) {t : RoutingTable}
    (ht : newRoutingTable addrs 1 = .ok t) (sourceId : String) :
    t.lookup h sourceId = [owner h addrs sourceId] := by
  have hne : addrs ≠ [] := by
    rintro rfl
    cases ht
  rw [lookup_stride h hnodup ht, List.range_one, List.map_singleton, Nat.zero_mul, Nat.add_zero,
    Nat.mod_eq_of_lt (owner_lt h hne sourceId)]

end routingTable

section setup

def ingressClient (i : Nat) (addr : String × Nat) : IngressClient :=
  if addr.2 = i then .store else .peer (newBatchedIngressClient 100 addr.1)

def egressClient (i : Nat) (addr : String × Nat) : EgressClient :=
  if addr.2 = i then .localStoreReader else .peer addr.1

def registered (dial : String × Nat → Bool) (i : Nat) (peer : String × Nat) : Bool :=
  decide (peer.2 = i) || dial peer

theorem registerClients_eq (dial : String × Nat → Bool) (xs : List (String × Nat)) (node : Node) :
    registerClients dial i node xs = { node with
      localIdx := if i ∈ xs.map Prod.snd then i else node.localIdx
      ingressClients := node.ingressClients ++ (xs.filter (registered dial i)).map (ingressClient i)
      egressClients :=
        node.egressClients ++ (xs.filter (registered dial i)).map (egressClient i) } := by
  induction xs generalizing node with
  | nil => simp [registerClients]
  | cons x xs ih =>
      obtain ⟨addr, k⟩ := x
      rw [registerClients]
      by_cases hk : k = i
      · subst hk
        have hreg : registered dial k (addr, k) = true := by simp [registered]
        rw [if_pos rfl, ih, List.filter_cons_of_pos hreg]
        simp [ingressClient, egressClient]
      · have hmem : i ∈ ((addr, k) :: xs).map Prod.snd ↔ i ∈ xs.map Prod.snd := by
          rw [List.map_cons, List.mem_cons, or_iff_right (Ne.symm hk)]
        have hreg : registered dial i (addr, k) = dial (addr, k) := by simp [registered, hk]
        rw [if_neg hk, if_congr hmem rfl rfl]
        by_cases hdial : dial (addr, k) = true
        · rw [if_pos hdial, ih, List.filter_cons_of_pos (hreg.trans hdial)]
          simp [ingressClient, egressClient, hk]
        · rw [if_neg hdial, ih, List.filter_cons_of_neg (by rw [hreg]; exact hdial)]

def freshNode (addrs : List String) (routes : RoutingTable) (store : Store) (i : Nat) : Node where
  routes := routes
  ingressClients := addrs.zipIdx.map (ingressClient i)
  egressClients := addrs.zipIdx.map (egressClient i)
  localIdx := i
  store := store
  ops := []

theorem setupRouting_eq (dial : String × Nat → Bool) {routes : RoutingTable}
    (hroutes : newRoutingTable addrs 1 = .ok routes) (store : Store) (hi : i < addrs.length) :
    setupRouting dial addrs store i = .ok { freshNode addrs routes store i with
      ingressClients := (addrs.zipIdx.filter (registered dial i)).map (ingressClient i)
      egressClients := (addrs.zipIdx.filter (registered dial i)).map (egressClient i) } := by
  have hmem : i ∈ addrs.zipIdx.map Prod.snd := by
    rw [List.zipIdx_map_snd]
    exact List.mem_range'_1.mpr ⟨Nat.zero_le _, by omega⟩
  rw [setupRouting, hroutes]
  change Except.ok _ = _
  rw [registerClients_eq, if_pos hmem]
  rfl

theorem setupRouting_dialled {dial : String × Nat → Bool}
    (hdial : ∀ peer ∈ addrs.zipIdx, dial peer = true) {routes : RoutingTable}
    (hroutes : newRoutingTable addrs 1 = .ok routes) (store : Store) (hi : i < addrs.length) :
    setupRouting dial addrs store i = .ok (freshNode addrs routes store i) := by
  have hall : addrs.zipIdx.filter (registered dial i) = addrs.zipIdx := by
    refine List.filter_eq_self.mpr fun peer hpeer => ?_
    rw [registered, hdial peer hpeer, Bool.or_true]
  rw [setupRouting_eq dial hroutes store hi, hall]
  rfl

theorem start_eq {dial : String → Bool} (hdial : ∀ addr ∈ addrs, dial addr = true)
    {routes : RoutingTable} (hroutes : newRoutingTable addrs 1 = .ok routes) (store : Store) :
    start dial addrs store = .ok ⟨addrs, (List.range addrs.length).map
      (freshNode addrs routes store), []⟩ := by
  have hall : ∀ peer ∈ addrs.zipIdx, dial peer.1 = true :=
    fun peer hpeer => hdial peer.1 (List.fst_mem_of_mem_zipIdx hpeer)
  rw [start, mapM_ok fun i hi => setupRouting_dialled hall hroutes store (List.mem_range.mp hi)]
  rfl

end setup

end LogCache.Wiring
