import LogCache.JumpHash
import Mathlib.Data.Nat.ModEq

namespace LogCache.Replicas

open JumpHash Routing Wiring

section stride

variable {a d n i j : Nat}

theorem stride_eq_iff (hn : 0 < n) : (a + i * d) % n = (a + j * d) % n ↔
    i ≡ j [MOD n / Nat.gcd n d] := by
  constructor
  · intro h
    exact Nat.ModEq.cancel_right_div_gcd hn (Nat.ModEq.add_left_cancel' a h)
  · intro h
    have hdvd : n ∣ n / Nat.gcd n d * d := by
      obtain ⟨k, hk⟩ := Nat.gcd_dvd_right n d
      refine ⟨k, ?_⟩
      calc n / Nat.gcd n d * d = n / Nat.gcd n d * (Nat.gcd n d * k) := by rw [← hk]
        _ = n / Nat.gcd n d * Nat.gcd n d * k := (Nat.mul_assoc _ _ _).symm
        _ = n * k := by rw [Nat.div_mul_cancel (Nat.gcd_dvd_left n d)]
    exact Nat.ModEq.add_left a ((h.mul_right' d).of_dvd hdvd)

theorem nodup_stride_iff (hn : 0 < n) (count : Nat) :
    ((List.range count).map fun i => (a + i * d) % n).Nodup ↔ count ≤ n / Nat.gcd n d := by
  rw [List.nodup_map_iff_inj_on List.nodup_range]
  constructor
  · intro h
    by_contra hlt
    push Not at hlt
    have hpos : 0 < n / Nat.gcd n d :=
      Nat.div_pos (Nat.gcd_le_left d hn) (Nat.gcd_pos_of_pos_left d hn)
    -- the last step within the range that is back at the start
    have hback : (a + n / Nat.gcd n d * d) % n = (a + 0 * d) % n :=
      (stride_eq_iff hn).mpr (Nat.modEq_zero_iff_dvd.mpr (dvd_refl _))
    have hzero := h _ (List.mem_range.mpr hlt) _ (List.mem_range.mpr (hpos.trans hlt)) hback
    omega
  · intro h i hi j hj heq
    exact Nat.ModEq.eq_of_lt_of_lt ((stride_eq_iff hn).mp heq) ((List.mem_range.mp hi).trans_le h)
      ((List.mem_range.mp hj).trans_le h)

end stride

structure Placed (h : Hashing) (addrs : List String) (replicationFactor : Nat) (item : String)
    (routes : List Nat) :
    Prop where
  length : routes.length = replicationFactor
  distinct : routes.Nodup
  bound : ∀ i ∈ routes, i < addrs.length
  first : routes.head? = some (owner h addrs item)

/-- The replicas are distinct exactly if the ring is long enough for as many
steps as there are replicas, each as long as there are replicas. -/
theorem lookup_placed_iff (h : Hashing) (addrs : List String) (hnodup : addrs.Nodup)
    (replicationFactor : Nat) (t : RoutingTable)
    (ht : newRoutingTable addrs replicationFactor = .ok t) (item : String) :
    Placed h addrs replicationFactor item (t.lookup h item) ↔
      replicationFactor * Nat.gcd replicationFactor addrs.length ≤ addrs.length := by
  have haccepted : 0 < replicationFactor ∧ replicationFactor ≤ addrs.length := by
    rw [newRoutingTable] at ht
    split_ifs at ht
    omega
  have hpos : 0 < addrs.length := by omega
  have hdistinct : (t.lookup h item).Nodup ↔
      replicationFactor * Nat.gcd replicationFactor addrs.length ≤ addrs.length := by
    rw [lookup_stride h hnodup ht, nodup_stride_iff hpos,
      Nat.le_div_iff_mul_le (Nat.gcd_pos_of_pos_left _ hpos), Nat.gcd_comm]
  refine ⟨fun hp => hdistinct.mp hp.distinct, fun hfits => ⟨?_, hdistinct.mpr hfits, ?_, ?_⟩⟩
  · rw [lookup_stride h hnodup ht, List.length_map, List.length_range]
  · intro i hi
    rw [lookup_stride h hnodup ht] at hi
    obtain ⟨n, _, rfl⟩ := List.mem_map.mp hi
    exact Nat.mod_lt _ hpos
  · obtain ⟨r, rfl⟩ := Nat.exists_eq_succ_of_ne_zero haccepted.1.ne'
    rw [lookup_stride h hnodup ht, List.range_succ_eq_map, List.map_cons, List.head?_cons,
      Nat.zero_mul, Nat.add_zero, Nat.mod_eq_of_lt
      (owner_lt h (List.ne_nil_of_length_pos hpos) item)]

theorem lookup_fourHundred {addrs : List String} {replicationFactor : Nat} {t : RoutingTable}
    (hnodup : addrs.Nodup) (hle : addrs.length ≤ 4)
    (ht : newRoutingTable addrs replicationFactor = .ok t) (hpos : 0 < addrs.length) :
    t.lookup testHashes "400" =
      (List.range replicationFactor).map fun n => n * replicationFactor % addrs.length := by
  rw [lookup_stride testHashes hnodup ht]
  simp only [owner_fourHundred hpos hle, Nat.zero_add]

def testAddrs : List String := ["10.0.1.1", "10.0.1.2", "10.0.1.3", "10.0.1.4"]

theorem lookup_placed_iff_four : ∃ t, newRoutingTable testAddrs 3 = .ok t ∧
    t.lookup testHashes "400" = [0, 3, 2] ∧
      Placed testHashes testAddrs 3 "400" (t.lookup testHashes "400") :=
  ⟨_, rfl, @lookup_fourHundred testAddrs 3 _ (by decide) (by decide) rfl (by decide),
    (lookup_placed_iff testHashes _ (by decide) 3 _ rfl "400").mpr (by decide)⟩

/-- Two replicas on two nodes are on the same node. -/
theorem lookup_repeats_node : ∃ t, newRoutingTable ["10.0.1.1", "10.0.1.2"] 2 = .ok t ∧
    t.lookup testHashes "400" = [0, 0] ∧
      ¬ Placed testHashes ["10.0.1.1", "10.0.1.2"] 2 "400" (t.lookup testHashes "400") := by
  have hlookup : ∀ t, newRoutingTable ["10.0.1.1", "10.0.1.2"] 2 = .ok t →
      t.lookup testHashes "400" = [0, 0] := fun t ht =>
    lookup_fourHundred (by decide) (by decide) ht (by decide)
  refine ⟨_, rfl, hlookup _ rfl, fun hp => ?_⟩
  have hdistinct := hp.distinct
  rw [hlookup _ rfl] at hdistinct
  exact absurd hdistinct (by decide)

end LogCache.Replicas
