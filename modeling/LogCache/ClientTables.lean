import LogCache.Wiring

namespace LogCache.ClientTables

open Envelopes EnvelopeStore Routing Wiring

variable {addrs : List String} {i k : Nat} {dial : String × Nat → Bool}

section slots

variable {α : Type} {p : α × Nat → Bool} {x : α × Nat}

theorem le_of_slot (xs : List α) (n : Nat) {k : Nat} (h : ((xs.zipIdx n).filter p)[k]? = some x) :
    n + k ≤ x.2 := by
  induction xs generalizing n k with
  | nil => simp at h
  | cons a xs ih =>
      rw [List.zipIdx_cons] at h
      by_cases ha : p (a, n) = true
      · rw [List.filter_cons_of_pos ha] at h
        cases k with
        | zero =>
            cases h
            exact Nat.le_refl n
        | succ k =>
            have := ih (n + 1) h
            omega
      · rw [List.filter_cons_of_neg ha] at h
        have := ih (n + 1) h
        omega

theorem kept_of_slot (xs : List α) (n : Nat) {k : Nat} (h : ((xs.zipIdx n).filter p)[k]? = some x)
    (hx : x.2 = n + k) : ∀ y ∈ xs.zipIdx n, y.2 ≤ n + k → p y = true := by
  induction xs generalizing n k with
  | nil => simp at h
  | cons a xs ih =>
      rw [List.zipIdx_cons] at h ⊢
      intro y hy hle
      by_cases ha : p (a, n) = true
      · rcases List.mem_cons.mp hy with rfl | hy
        · exact ha
        · have hlow := (List.mem_zipIdx hy).1
          rw [List.filter_cons_of_pos ha] at h
          cases k with
          | zero => omega
          | succ k => exact ih (n + 1) h (by omega) y hy (by omega)
      · rw [List.filter_cons_of_neg ha] at h
        have := le_of_slot xs (n + 1) h
        omega

theorem slot_of_kept (xs : List α) (n : Nat) {k : Nat}
    (h : ∀ y ∈ xs.zipIdx n, y.2 ≤ n + k → p y = true) :
    ((xs.zipIdx n).filter p)[k]? = (xs.zipIdx n)[k]? := by
  induction xs generalizing n k with
  | nil => rfl
  | cons a xs ih =>
      rw [List.zipIdx_cons] at h ⊢
      rw [List.filter_cons_of_pos (h (a, n) List.mem_cons_self (Nat.le_add_right n k))]
      cases k with
      | zero => rfl
      | succ k =>
          rw [List.getElem?_cons_succ, List.getElem?_cons_succ]
          exact ih (n + 1) fun y hy hle => h y (List.mem_cons_of_mem _ hy) (by omega)

end slots

section tables

def Selects (i : Nat) (node : Node) (k : Nat) (addr : String) : Prop :=
  node.ingressClients[k]? = some (ingressClient i (addr, k)) ∧
    node.egressClients[k]? = some (egressClient i (addr, k))

structure Aligned (h : Hashing) (addrs : List String) (i : Nat) (node : Node) : Prop where
  routes : ∀ item, ∀ k ∈ node.routes.lookup h item, ∃ addr, addrs[k]? = some addr ∧
    Selects i node k addr
  ingressLocal : node.ingressClients[node.localIdx]? = some .store
  egressLocal : node.egressClients[node.localIdx]? = some .localStoreReader

def DialledUpTo (dial : String × Nat → Bool) (addrs : List String) (i k : Nat) : Prop :=
  ∀ peer ∈ addrs.zipIdx, peer.2 ≤ k → registered dial i peer = true

/-- A later peer with the same address has come to the place of the `k`-th. -/
def Replaced (dial : String × Nat → Bool) (addrs : List String) (i k : Nat) : Prop :=
  k ≠ i ∧ ∃ peer, (addrs.zipIdx.filter (registered dial i))[k]? = some peer ∧ peer.2 ≠ i ∧
    addrs[k]? = some peer.1

theorem slot_of_dialled (hdial : DialledUpTo dial addrs i k) {addr : String}
    (hk : addrs[k]? = some addr) :
    (addrs.zipIdx.filter (registered dial i))[k]? = some (addr, k) := by
  rw [slot_of_kept addrs 0 (by rw [Nat.zero_add]; exact hdial), List.getElem?_zipIdx, hk]
  simp

theorem dialled_of_slot {peer : String × Nat}
    (h : (addrs.zipIdx.filter (registered dial i))[k]? = some peer) (hpeer : peer.2 = k) :
    DialledUpTo dial addrs i k := by
  have hall := kept_of_slot addrs 0 h (by rw [Nat.zero_add]; exact hpeer)
  rwa [Nat.zero_add] at hall

theorem selects_iff {node : Node} {addr : String}
    (hin : node.ingressClients = (addrs.zipIdx.filter (registered dial i)).map (ingressClient i))
    (hout : node.egressClients = (addrs.zipIdx.filter (registered dial i)).map (egressClient i)) :
    Selects i node k addr ↔ ∃ peer, (addrs.zipIdx.filter (registered dial i))[k]? = some peer ∧
      (peer.2 = i ↔ k = i) ∧ (k ≠ i → peer.1 = addr) := by
  rw [Selects, hin, hout, List.getElem?_map, List.getElem?_map]
  cases hslot : (addrs.zipIdx.filter (registered dial i))[k]? with
  | none => simp
  | some peer =>
      have hleft : ∀ {q : String × Nat → Prop}, (∃ peer', some peer = some peer' ∧ q peer') ↔
          q peer := by simp
      rw [hleft, Option.map_some, Option.map_some, Option.some_inj, Option.some_inj, ingressClient,
        ingressClient, egressClient, egressClient]
      by_cases hk : k = i <;> by_cases hpeer :
        peer.2 = i <;> simp [hk, hpeer, newBatchedIngressClient]

theorem dialled_of_replaced (hnodup : addrs.Nodup) (hrep : Replaced dial addrs i k) :
    DialledUpTo dial addrs i k := by
  obtain ⟨-, peer, hslot, -, hk⟩ := hrep
  have hmem : peer ∈ addrs.zipIdx := (List.mem_filter.mp (List.mem_of_getElem? hslot)).1
  have hpeer : addrs[peer.2]? = some peer.1 := List.mem_zipIdx_iff_getElem?.mp hmem
  refine dialled_of_slot hslot ?_
  obtain ⟨hlt, heq⟩ := List.getElem?_eq_some_iff.mp hpeer
  obtain ⟨hlt', heq'⟩ := List.getElem?_eq_some_iff.mp hk
  exact hnodup.getElem_inj_iff.mp (heq.trans heq'.symm)

theorem selects_iff_dialled {node : Node} {addr : String} (hk : addrs[k]? = some addr)
    (hin : node.ingressClients = (addrs.zipIdx.filter (registered dial i)).map (ingressClient i))
    (hout : node.egressClients = (addrs.zipIdx.filter (registered dial i)).map (egressClient i)) :
    Selects i node k addr ↔ DialledUpTo dial addrs i k ∨ Replaced dial addrs i k := by
  rw [selects_iff hin hout]
  constructor
  · rintro ⟨peer, hslot, hown, haddr⟩
    by_cases hki : k = i
    · exact .inl (dialled_of_slot hslot ((hown.mpr hki).trans hki.symm))
    · exact .inr ⟨hki, peer, hslot, mt hown.mp hki, by rw [haddr hki]; exact hk⟩
  · rintro (hdial | ⟨hki, peer, hslot, hpeer, haddr⟩)
    · exact ⟨(addr, k), slot_of_dialled hdial hk, Iff.rfl, fun _ => rfl⟩
    · refine ⟨peer, hslot, iff_of_false hpeer hki, fun _ => ?_⟩
      exact Option.some_inj.mp (haddr.symm.trans hk)

end tables

theorem aligned_iff_dialled (h : Hashing) {node : Node} {routes : RoutingTable}
    (hroutes : newRoutingTable addrs 1 = .ok routes) (hi : i < addrs.length)
    (hin : node.ingressClients = (addrs.zipIdx.filter (registered dial i)).map (ingressClient i))
    (hout : node.egressClients = (addrs.zipIdx.filter (registered dial i)).map (egressClient i))
    (htable : node.routes = routes) (hlocal : node.localIdx = i) :
    Aligned h addrs i node ↔ DialledUpTo dial addrs i i ∧
      ∀ item, ∀ k ∈ routes.lookup h item, DialledUpTo dial addrs i k ∨ Replaced dial addrs i k := by
  have hself : Selects i node i addrs[i] ↔ DialledUpTo dial addrs i i := by
    rw [selects_iff_dialled (List.getElem?_eq_getElem hi) hin hout]
    exact or_iff_left fun hrep => hrep.1 rfl
  have hown : Selects i node i addrs[i] ↔
      node.ingressClients[node.localIdx]? = some .store ∧
        node.egressClients[node.localIdx]? = some .localStoreReader := by
    rw [Selects, hlocal, ingressClient, egressClient, if_pos rfl, if_pos rfl]
  have hroute : ∀ k < addrs.length, (∃ addr, addrs[k]? = some addr ∧ Selects i node k addr) ↔
      DialledUpTo dial addrs i k ∨ Replaced dial addrs i k := by
    intro k hk
    have hget := List.getElem?_eq_getElem hk
    rw [← selects_iff_dialled hget hin hout, hget]
    simp
  rw [← hself, hown]
  constructor
  · intro ha
    refine ⟨⟨ha.ingressLocal, ha.egressLocal⟩, fun item k hk => ?_⟩
    exact (hroute k (lookup_lt h hroutes item k hk)).mp (ha.routes item k (htable ▸ hk))
  · rintro ⟨⟨hin', hout'⟩, hall⟩
    refine ⟨fun item k hk => ?_, hin', hout'⟩
    rw [htable] at hk
    exact (hroute k (lookup_lt h hroutes item k hk)).mpr (hall item k hk)

/-- A peer that cannot be dialled shifts the clients after it. So the clients
are in place if and only if every peer up to the local index and up to each
route has been dialled; an undialled one is made up for only by a later peer
with the same address. -/
theorem aligned_iff (h : Hashing) (dial : String × Nat → Bool) (addrs : List String)
    (store : Store) (i : Nat) (hi : i < addrs.length) :
    ∃ routes node, newRoutingTable addrs 1 = .ok routes ∧
      setupRouting dial addrs store i = .ok node ∧
      (Aligned h addrs i node ↔ DialledUpTo dial addrs i i ∧
        ∀ item, ∀ k ∈ routes.lookup h item, DialledUpTo dial addrs i k ∨ Replaced dial addrs i k) ∧
      (addrs.Nodup → (Aligned h addrs i node ↔ DialledUpTo dial addrs i i ∧
        ∀ item, ∀ k ∈ routes.lookup h item, DialledUpTo dial addrs i k)) := by
  have hne : addrs ≠ [] := List.length_pos_iff.mp (Nat.zero_lt_of_lt hi)
  obtain ⟨routes, hroutes⟩ := newRoutingTable_ok hne
  refine ⟨routes, _, hroutes, setupRouting_eq dial hroutes store hi, ?_⟩
  have haligned := fun node => @aligned_iff_dialled addrs i dial h node routes hroutes hi
  refine ⟨haligned _ rfl rfl rfl rfl, fun hnodup => ?_⟩
  rw [haligned _ rfl rfl rfl rfl]
  refine and_congr_right fun _ => forall_congr' fun item => forall₂_congr fun k _ => ?_
  exact or_iff_left_of_imp (dialled_of_replaced hnodup)

theorem aligned_iff_three_nodes :
    ∃ routes node, newRoutingTable ["a", "b", "c"] 1 = .ok routes ∧
      setupRouting (fun _ => true) ["a", "b", "c"] (newStore 10 1) 2 = .ok node ∧
      Aligned byLength ["a", "b", "c"] 2 node := by
  obtain ⟨routes, node, hroutes, hnode, -, haligned⟩ :=
    aligned_iff byLength (fun _ => true) ["a", "b", "c"] (newStore 10 1) 2 (by decide)
  have hall : ∀ k, DialledUpTo (fun _ => true) ["a", "b", "c"] 2 k :=
    fun k peer _ _ => Bool.or_true _
  exact ⟨routes, node, hroutes, hnode, (haligned (by decide)).mpr ⟨hall 2, fun _ k _ => hall k⟩⟩

/-- The third of three nodes cannot dial the first one. What belongs to the
second then goes to its own store, and the local index is beyond the table. -/
theorem clients_shift_after_a_failed_dial :
    ∃ node, setupRouting (fun peer => decide (peer.2 ≠ 0)) ["a", "b", "c"]
      (newStore 10 1) 2 = .ok node ∧
      node.routes.lookup byLength "x" = [1] ∧ node.ingressClients[1]? = some .store ∧
      node.egressClients[1]? = some .localStoreReader ∧
      node.ingressClients[node.localIdx]? = none ∧ node.egressClients[node.localIdx]? = none ∧
      ¬ Aligned byLength ["a", "b", "c"] 2 node := by
  refine ⟨_, rfl, by decide +kernel, rfl, rfl, rfl, rfl, fun ha => ?_⟩
  exact absurd ha.ingressLocal (by rintro ⟨⟩)

end LogCache.ClientTables
