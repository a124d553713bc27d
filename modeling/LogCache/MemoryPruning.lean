import LogCache.Accounting
import LogCache.Rounding

namespace LogCache.MemoryPruning

open Accounting Envelopes EnvelopeStore Rounding Runs StoreTransitions Truncation

structure PruneConsultant where
  percentToFill : ℚ
  nonneg : 0 ≤ percentToFill
  double : float64 percentToFill = percentToFill

def heapPercentage (heap total : UInt64) : ℚ :=
  float64 (float64 (heap * 100).toNat / float64 total.toNat)

/-- Without a total the percentage is infinite or not a number. What is then
infinity divided by infinity converts to an integer that the language does not
specify. -/
def PruneConsultant.getQuantityToPrune (pc : PruneConsultant) (heap total : UInt64)
    (storeCount : Int) : Option Int :=
  if total = 0 then if heap * 100 = 0 then some 0 else none
  else if pc.percentToFill < heapPercentage heap total then
    let percentageToPrune :=
      float64 (float64 (heapPercentage heap total - pc.percentToFill) / heapPercentage heap total)
    some (toInt (float64 (float64 storeCount * percentageToPrune)))
  else some 0

section share

variable {p h r : ℚ}

theorem epsilon_pos : 0 < epsilon := by
  rw [epsilon]
  positivity

theorem epsilon_le : epsilon ≤ 1 / 3 := by
  rw [epsilon]
  norm_num

theorem percentage_error (hp : 0 ≤ p) (hlt : p < h) :
    0 ≤ float64 (float64 (h - p) / h) ∧ |float64 (float64 (h - p) / h) - (h - p) / h| ≤
      3 * epsilon := by
  have heps := epsilon_pos
  have hsmall := epsilon_le
  have hh : 0 < h := hp.trans_lt hlt
  have hdiff : 0 < h - p := sub_pos.mpr hlt
  have hle : (h - p) / h ≤ 1 := (div_le_one hh).mpr (by linarith)
  have hsub : |float64 (h - p) / h - (h - p) / h| ≤ epsilon := by
    rw [← sub_div, abs_div, abs_of_pos hh, div_le_iff₀ hh]
    calc |float64 (h - p) - (h - p)| ≤ (h - p) * epsilon := float64_error hdiff.le
      _ ≤ h * epsilon := mul_le_mul_of_nonneg_right (by linarith) heps.le
      _ = epsilon * h := mul_comm _ _
  have hnonneg : 0 ≤ float64 (h - p) / h := div_nonneg (float64_nonneg hdiff.le) hh.le
  have hdiv := float64_error hnonneg
  have hbound : float64 (h - p) / h * epsilon ≤ 2 * epsilon := by
    refine mul_le_mul_of_nonneg_right ?_ heps.le
    linarith [(abs_le.mp hsub).2]
  refine ⟨float64_nonneg hnonneg, ?_⟩
  rw [abs_le] at hsub hdiv ⊢
  constructor <;> linarith

theorem ratio_error (hp : 0 ≤ p) (hr : 0 < r) (hlt : p < float64 r) :
    |(float64 r - p) / float64 r - (1 - p / r)| ≤ epsilon := by
  have herr := float64_error hr.le
  generalize float64 r = h at hlt herr ⊢
  have hh : 0 < h := hp.trans_lt hlt
  have hsplit : (h - p) / h - (1 - p / r) = p / h * ((h - r) / r) := by
    field_simp
    ring
  have hratio : p / h ≤ 1 := (div_le_one hh).mpr hlt.le
  have hrel : |h - r| / r ≤ epsilon := by
    rw [div_le_iff₀ hr, mul_comm]
    exact herr
  rw [hsplit, abs_mul, abs_of_nonneg (div_nonneg hp hh.le), abs_div, abs_of_pos hr]
  calc p / h * (|h - r| / r) ≤ 1 * epsilon :=
        mul_le_mul hratio hrel (div_nonneg (abs_nonneg _) hr.le) zero_le_one
    _ = epsilon := one_mul _

theorem share_error (hp : 0 ≤ p) (hr : 0 < r) (hlt : p < float64 r) (n : ℕ) :
    0 ≤ float64 (n * float64 (float64 (float64 r - p) / float64 r)) ∧
      |float64 (n * float64 (float64 (float64 r - p) / float64 r)) - n * (1 - p / r)| ≤
        n * (6 * epsilon) := by
  have hn : (0 : ℚ) ≤ n := n.cast_nonneg
  have hle : (float64 r - p) / float64 r ≤ 1 := (div_le_one (hp.trans_lt hlt)).mpr (by linarith)
  have hratio := ratio_error hp hr hlt
  obtain ⟨hnonneg, hpercentage⟩ := percentage_error hp hlt
  generalize float64 (float64 (float64 r - p) / float64 r) = percentage at hnonneg hpercentage ⊢
  have hmul := float64_error (mul_nonneg hn hnonneg)
  have heps := epsilon_pos
  have hsmall := epsilon_le
  refine ⟨float64_nonneg (mul_nonneg hn hnonneg), ?_⟩
  have hproduct : n * percentage * epsilon ≤ n * (2 * epsilon) := by
    rw [mul_assoc]
    refine mul_le_mul_of_nonneg_left (mul_le_mul_of_nonneg_right ?_ heps.le) hn
    linarith [(abs_le.mp hpercentage).2]
  have hshare : |percentage - (1 - p / r)| ≤ 4 * epsilon := by
    rw [abs_le] at hratio hpercentage ⊢
    constructor <;> linarith
  have hscaled : |n * percentage - n * (1 - p / r)| ≤ n * (4 * epsilon) := by
    rw [← mul_sub, abs_mul, abs_of_nonneg hn]
    exact mul_le_mul_of_nonneg_left hshare hn
  rw [abs_le] at hmul hscaled ⊢
  constructor <;> linarith

end share

section quantity

variable {pc : PruneConsultant} {heap total : UInt64} {n : ℕ}

def percentage (heap total : UInt64) : ℚ := (heap.toNat * 100 : ℕ) / total.toNat

def PruneConsultant.allowed (pc : PruneConsultant) (heap total : UInt64) : ℚ :=
  if percentage heap total ≤ pc.percentToFill then 1 else pc.percentToFill / percentage heap total

theorem heapPercentage_eq (hheap : heap.toNat * 100 < 2 ^ 53) (htotal : total.toNat < 2 ^ 53) :
    heapPercentage heap total = float64 (percentage heap total) := by
  have hmul : (heap * 100).toNat = heap.toNat * 100 := by
    rw [UInt64.toNat_mul]
    exact Nat.mod_eq_of_lt (hheap.trans (by decide))
  rw [heapPercentage, hmul, float64_natCast hheap, float64_natCast htotal, percentage]

theorem mul_epsilon_le (hn : n ≤ 2 ^ 50) : n * (6 * epsilon) ≤ 1 := by
  have hcast : (n : ℚ) ≤ 2 ^ 50 := by exact_mod_cast hn
  calc n * (6 * epsilon) ≤ 2 ^ 50 * (6 * epsilon) :=
        mul_le_mul_of_nonneg_right hcast (mul_nonneg (by norm_num) epsilon_pos.le)
    _ ≤ 1 := by
        rw [epsilon]
        norm_num

theorem percentage_nonneg (heap total : UInt64) : 0 ≤ percentage heap total :=
  div_nonneg (Nat.cast_nonneg _) (Nat.cast_nonneg _)

theorem within_error (hp : ¬ pc.percentToFill < float64 (percentage heap total)) (hn : n ≤ 2 ^ 50) :
    |(n : ℚ) * (1 - pc.allowed heap total)| ≤ 1 := by
  have hnonneg : (0 : ℚ) ≤ n := n.cast_nonneg
  have hmul := mul_epsilon_le hn
  have heps := mul_nonneg hnonneg epsilon_pos.le
  rw [PruneConsultant.allowed]
  split_ifs with hle
  · rw [sub_self, mul_zero, abs_zero]
    exact zero_le_one
  · have hlt := not_le.mp hle
    have hr : 0 < percentage heap total := pc.nonneg.trans_lt hlt
    have herr := (abs_le.mp (float64_error hr.le)).1
    have hshare : 1 - pc.percentToFill / percentage heap total ≤ epsilon := by
      rw [sub_le_comm, le_div_iff₀ hr]
      linarith [not_lt.mp hp]
    have hpos : 0 ≤ 1 - pc.percentToFill / percentage heap total :=
      sub_nonneg.mpr ((div_le_one hr).mpr hlt.le)
    rw [abs_of_nonneg (mul_nonneg hnonneg hpos)]
    linarith [mul_le_mul_of_nonneg_left hshare hnonneg]

theorem float64_le_of_le (hle : percentage heap total ≤ pc.percentToFill) :
    float64 (percentage heap total) ≤ pc.percentToFill :=
  (float64_mono (percentage_nonneg heap total) hle).trans pc.double.le

theorem quantity_error (pc : PruneConsultant) (htotal : total ≠ 0)
    (hheap : heap.toNat * 100 < 2 ^ 53) (hsmall : total.toNat < 2 ^ 53) (hn : n ≤ 2 ^ 50) :
    ∃ quantity, pc.getQuantityToPrune heap total n = some quantity ∧ 0 ≤ quantity ∧
      (percentage heap total ≤ pc.percentToFill → quantity = 0) ∧
      |(quantity : ℚ) - n * (1 - pc.allowed heap total)| ≤ 2 := by
  have hcount : float64 ((n : Int) : ℚ) = n := by
    rw [Int.cast_natCast]
    exact float64_natCast (hn.trans_lt (by decide))
  rw [PruneConsultant.getQuantityToPrune, if_neg htotal, heapPercentage_eq hheap hsmall]
  by_cases hover : pc.percentToFill < float64 (percentage heap total)
  · have hnot : ¬ percentage heap total ≤ pc.percentToFill :=
      fun hle => absurd (float64_le_of_le hle) (not_le.mpr hover)
    have hr : 0 < percentage heap total := pc.nonneg.trans_lt (not_le.mp hnot)
    obtain ⟨hnonneg, hshare⟩ := share_error pc.nonneg hr hover n
    obtain ⟨hpos, htoInt⟩ := toInt_error hnonneg
    have hmul := mul_epsilon_le hn
    rw [if_pos hover, hcount, PruneConsultant.allowed, if_neg hnot]
    refine ⟨_, rfl, hpos, fun hle => absurd hle hnot, ?_⟩
    rw [abs_le] at hshare htoInt ⊢
    constructor <;> linarith
  · rw [if_neg hover]
    refine ⟨0, rfl, Int.le_refl 0, fun _ => rfl, ?_⟩
    have hwithin := @within_error pc heap total n hover hn
    rw [Int.cast_zero, zero_sub, abs_neg]
    exact hwithin.trans one_le_two

end quantity

section truncation

variable {heap total : UInt64}

theorem allowed_bounds (pc : PruneConsultant) (heap total : UInt64) :
    0 ≤ pc.allowed heap total ∧ pc.allowed heap total ≤ 1 := by
  rw [PruneConsultant.allowed]
  split_ifs with hle
  · exact ⟨zero_le_one, le_refl 1⟩
  · have hlt := not_le.mp hle
    exact ⟨div_nonneg pc.nonneg (percentage_nonneg heap total),
      (div_le_one (pc.nonneg.trans_lt hlt)).mpr hlt.le⟩

theorem length_entries (s : Store) : (entries s).length = size s := by
  rw [entries, SyncMap.length_flatten]
  exact SyncMap.total_congr fun _ storage _ => (AvlTree.Tree.size_eq_length storage.tree).symm

theorem kept_error {quantity : Int} {n kept : ℕ} {a : ℚ} (hquantity : 0 ≤ quantity) (ha : 0 ≤ a)
    (hn : n = min quantity.toNat n + kept) (h : |(quantity : ℚ) - n * (1 - a)| ≤ 2) :
    |(kept : ℚ) - n * a| ≤ 2 := by
  have hna : 0 ≤ n * a := mul_nonneg n.cast_nonneg ha
  obtain ⟨q, rfl⟩ := Int.eq_ofNat_of_zero_le hquantity
  rw [Int.toNat_natCast] at hn
  rw [Int.cast_natCast] at h
  rcases Nat.le_total q n with hle | hle
  · have hkept : (q : ℚ) + kept = n := by exact_mod_cast (Nat.min_eq_left hle ▸ hn).symm
    rw [abs_le] at h ⊢
    constructor <;> linarith
  · have hkept : kept = 0 := by
      rw [Nat.min_eq_right hle] at hn
      omega
    have hcast : (n : ℚ) ≤ q := by exact_mod_cast hle
    rw [hkept, Nat.cast_zero]
    rw [abs_le] at h ⊢
    constructor <;> linarith

theorem record_sound {l l' : Ledger} {op : Op} (hl : Sound l) (hfree : HasFreeKey l.store op)
    (hstep : record l op = .ok l') : Sound l' := by
  cases op with
  | put e sourceId =>
      obtain ⟨l'', hrecord, hsound⟩ := record_put hl e sourceId hfree
      cases hrecord.symm.trans hstep
      exact hsound
  | truncate quantity order =>
      obtain ⟨l'', hrecord, hsound⟩ := record_truncate hl quantity order
      cases hrecord.symm.trans hstep
      exact hsound

/-- After any run of the store, a truncation that the consultant is asked
about removes the oldest envelopes, and leaves the part that the limit allows. -/
theorem prunes_share (pc : PruneConsultant) (maxPerSource prunesPerGC : Int) (hm : 1 ≤ maxPerSource)
    (ops : List Op) (l : Ledger)
    (hfree : Along record (fun l op => HasFreeKey l.store op) (opened maxPerSource prunesPerGC) ops)
    (hrun : run record (opened maxPerSource prunesPerGC) ops = .ok l) (heap total : UInt64)
    (htotal : total ≠ 0) (hheap : heap.toNat * 100 < 2 ^ 53) (hsmall : total.toNat < 2 ^ 53)
    (hsize : size l.store ≤ 2 ^ 50) (order : SyncMap.RangeOrder String Storage) :
    ∃ quantity s pruned, pc.getQuantityToPrune heap total l.store.counters.count = some quantity ∧
      l.store.truncate quantity order = .ok s ∧ (entries l.store).Perm (pruned ++ entries s) ∧
      (∀ x ∈ pruned, ∀ y ∈ entries s, x.2.1 ≤ y.2.1) ∧
      (percentage heap total ≤ pc.percentToFill → pruned = []) ∧
      |((entries s).length : ℚ) - (entries l.store).length * pc.allowed heap total| ≤ 2 := by
  have hl : Sound l :=
    run_invariant (fun _ _ _ hs hf hstep => record_sound hs hf hstep) (opened_sound hm prunesPerGC)
    hfree hrun
  obtain ⟨quantity, hquantity, hnonneg, hzero, herror⟩ :=
    quantity_error pc htotal hheap hsmall hsize
  obtain ⟨pruned, t, counters, hok, hprunes, hlength, -⟩ :=
    truncate_ok hl.nonEmpty hl.reconciled.count quantity order
  have hperm := Prunes.entries hprunes
  rw [hl.reconciled.count]
  refine ⟨quantity, _, pruned, hquantity, hok, hperm, fun x hx y hy => Prunes.oldest hprunes hx hy,
    fun hle => ?_, ?_⟩
  · rw [hzero hle] at hlength
    exact List.length_eq_zero_iff.mp (hlength.trans (Nat.zero_min _))
  · have hsplit := hperm.length_eq
    rw [List.length_append, hlength, length_entries] at hsplit
    rw [length_entries l.store]
    exact kept_error hnonneg (allowed_bounds pc heap total).1 hsplit herror

def half : PruneConsultant := ⟨50, by norm_num, float64_natCast (by decide : 50 < 2 ^ 53)⟩

def thirtyPuts : List Op :=
  (List.range 20).map (fun n => .put (bare (Int64.ofNat n)) "a") ++
    (List.range 10).map fun n => .put (bare (Int64.ofNat (2 * n))) "b"

/-- With the heap at sixty percent, a sixth of the thirty envelopes has to go. -/
theorem prunes_share_thirty : ∃ l quantity s pruned,
    run record (opened 100 1) thirtyPuts = .ok l ∧ (entries l.store).length = 30 ∧
      half.getQuantityToPrune 60 100 l.store.counters.count = some quantity ∧
      l.store.truncate quantity .id = .ok s ∧ (entries l.store).Perm (pruned ++ entries s) ∧
      23 ≤ (entries s).length ∧ (entries s).length ≤ 27 := by
  have hfree : Along record (fun l op => HasFreeKey l.store op) (opened 100 1) thirtyPuts :=
    along_hasFreeKey (by decide +kernel)
  obtain ⟨l, hrun, hlength⟩ : ∃ l, run record (opened 100 1) thirtyPuts = .ok l ∧
      size l.store = 30 := exists_of_ends (by decide +kernel)
  have hsize : size l.store ≤ 2 ^ 50 := by
    rw [hlength]
    decide
  obtain ⟨quantity, s, pruned, hquantity, hok, hperm, -, -, hkept⟩ :=
    prunes_share half 100 1 (by decide) thirtyPuts l hfree hrun 60 100 (by decide) (by decide)
      (by decide) hsize .id
  have hentries : (entries l.store).length = 30 := (length_entries l.store).trans hlength
  have hpercentage : percentage 60 100 = 60 := by
    rw [percentage, show (60 : UInt64).toNat = 60 from rfl,
      show (100 : UInt64).toNat = 100 from rfl]
    norm_num
  have hallowed : half.allowed 60 100 = 5 / 6 := by
    rw [PruneConsultant.allowed, hpercentage]
    norm_num [half]
  rw [hentries, hallowed, abs_le] at hkept
  refine ⟨l, quantity, s, pruned, hrun, hentries, hquantity, hok, hperm, ?_, ?_⟩
  · have hlow : (23 : ℚ) ≤ (entries s).length := by linarith [hkept.1]
    exact_mod_cast hlow
  · have hhigh : ((entries s).length : ℚ) ≤ 27 := by linarith [hkept.2]
    exact_mod_cast hhigh

end truncation

end LogCache.MemoryPruning
