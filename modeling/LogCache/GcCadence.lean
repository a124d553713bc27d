import LogCache.StructuralInvariant

namespace LogCache.GcCadence

open AvlTree Envelopes EnvelopeStore StoreSteps StoreTransitions Truncation StructuralInvariant Runs

variable {s s' : Store}

section history

/-- A store with the number of its pruning truncations since the last garbage
collection, or since the last truncation that had nothing to prune. -/
structure History where
  store : Store
  prunes : Nat

def started (maxPerSource prunesPerGC : Int) : History := ⟨newStore maxPerSource prunesPerGC, 0⟩

def Collected (s s' : Store) : Prop := s.counters.collections < s'.counters.collections

instance (s s' : Store) : Decidable (Collected s s') := inferInstanceAs (Decidable (_ < _))

/-- The operation is a truncation that removed something. A Put that evicts does
not count. -/
def Pruned (s s' : Store) : Op → Prop
  | .put _ _ => False
  | .truncate _ _ => size s' < size s

def prunesAfter (prunes : Nat) (s s' : Store) : Op → Nat
  | .put _ _ => prunes
  | .truncate quantity _ =>
      if quantity = 0 ∨ Collected s s' then 0 else if size s' < size s then prunes + 1 else prunes

def observe (h : History) (op : Op) : Except Panic History := do
  let s ← exec h.store op
  return ⟨s, prunesAfter h.prunes h.store s op⟩

theorem observe_store (h : History) (op : Op) :
    History.store <$> observe h op = exec h.store op := by
  rw [observe]
  cases exec h.store op <;> rfl

theorem observe_ok {h h' : History} {op : Op} (hobs : observe h op = .ok h') :
    exec h.store op = .ok h'.store ∧ h'.prunes = prunesAfter h.prunes h.store h'.store op := by
  rw [observe] at hobs
  obtain ⟨s, hexec, hobs⟩ := bind_ok hobs
  cases hobs
  exact ⟨hexec, rfl⟩

end history

section outcome

theorem put_cadence {e : Envelope} {sourceId : String} (h : s.put e sourceId = .ok s') :
    s'.counters.consecutiveTruncation = s.counters.consecutiveTruncation ∧
      s'.counters.collections = s.counters.collections := by
  rw [put_eq] at h
  obtain ⟨⟨counters, storage⟩, hswap, h⟩ := bind_ok h
  cases h
  rw [Storage.insertOrSwap] at hswap
  obtain ⟨⟨counters₁, storage₁⟩, hroom, hinsert⟩ := bind_ok hswap
  have hroom' : counters₁.consecutiveTruncation = s.counters.consecutiveTruncation ∧
      counters₁.collections = s.counters.collections := by
    rw [Storage.makeRoom] at hroom
    split_ifs at hroom
    · cases hleft : (storageFor s sourceId).tree.left with
      | none =>
          rw [hleft] at hroom
          cases hroom
      | some p =>
          rw [hleft] at hroom
          cases hroom
          exact ⟨rfl, rfl⟩
    · cases hroom
      exact ⟨rfl, rfl⟩
  simp only [Storage.insert] at hinsert
  split at hinsert
  · cases hinsert
  · cases hinsert
    exact hroom'

theorem put_size_le {e : Envelope} {sourceId : String} (hle : (size s : Int) ≤ s.counters.count)
    (h : s.put e sourceId = .ok s') : (size s' : Int) ≤ s'.counters.count := by
  obtain ⟨counters', storage', hi, rfl⟩ := put_inserted h
  have hgrow := Accounting.size_insert s s.config counters' sourceId storage'
  have hsize := Inserted.size_le hi
  have hcount := hi.count
  simp only [received] at hcount ⊢
  omega

theorem Prunes.cadence {xs : List Entry} (h : Prunes s xs s') :
    s'.config = s.config ∧ s'.counters.consecutiveTruncation = s.counters.consecutiveTruncation ∧
      s'.counters.collections = s.counters.collections := by
  induction h with
  | done s => exact ⟨rfl, rfl, rfl⟩
  | step hr _ _ ih =>
      rw [hr.counters, hr.config] at ih
      exact ih

theorem truncate_outcome {quantity : Int} {order : SyncMap.RangeOrder String Storage}
    (hne : NonEmpty s) (hq : quantity ≠ 0) (h : s.truncate quantity order = .ok s') :
    ∃ xs t oldest, Prunes s xs t ∧ xs.length = (numberToPrune s.counters.count quantity).toNat ∧
      (oldest = none ↔ size t = 0) ∧
        s' = { t with counters := t.counters.afterPruning t.config oldest } := by
  rw [truncate_of_ne hq] at h
  obtain ⟨heap, hbuild, h⟩ := bind_ok h
  obtain ⟨⟨t, heap'⟩, hloop, h⟩ := bind_ok h
  cases h
  obtain ⟨heap₁, hbuild₁, hheap⟩ := buildExpirationHeap_ok hne order
  rw [hbuild] at hbuild₁
  cases hbuild₁
  obtain ⟨xs, t₁, heap₁, hloop₁, hxs, hlen, hheap'⟩ :=
    pruneLoop_ok _ hne hheap (pruneLoop_le hne hheap hloop)
  rw [hloop] at hloop₁
  cases hloop₁
  refine ⟨xs, t, _, hxs, hlen, ?_, rfl⟩
  rw [Option.map_eq_none_iff, List.getLast?_eq_none_iff]
  exact hheap'.eq_nil_iff

end outcome

section cadence

variable {prunesPerGC : Int} {h h' : History} {op : Op}

/-- The law of one operation: it collects exactly if it is the truncation that
makes the prunes complete, and the counter of the store follows the prunes. -/
structure Cadence (prunesPerGC : Int) (h : History) (op : Op) (h' : History) : Prop where
  collects : Collected h.store h'.store ↔ Pruned h.store h'.store op ∧
    (h.prunes + 1 : Int) = prunesPerGC
  counts : h'.store.counters.consecutiveTruncation = h'.prunes
  range : (h'.prunes : Int) < prunesPerGC

structure InStep (prunesPerGC : Int) (h : History) : Prop where
  config : h.store.config.prunesPerGC = prunesPerGC
  nonEmpty : NonEmpty h.store
  size_le : (size h.store : Int) ≤ h.store.counters.count
  counts : h.store.counters.consecutiveTruncation = h.prunes
  range : (h.prunes : Int) < prunesPerGC

/-- A truncation of what is stored does not take exactly all of it, and is not
asked for less than nothing. -/
def LeavesSome (s : Store) : Op → Prop
  | .put _ _ => True
  | .truncate quantity _ => size s = 0 ∨ 0 ≤ quantity ∧ min quantity s.counters.count ≠ size s

instance (s : Store) : ∀ op, Decidable (LeavesSome s op)
  | .put _ _ => isTrue trivial
  | .truncate _ _ => inferInstanceAs (Decidable (_ ∨ _))

theorem put_inCadence (hI : InStep prunesPerGC h) {e : Envelope} {sourceId : String}
    (hobs : observe h (.put e sourceId) = .ok h') : Cadence prunesPerGC h (.put e sourceId) h' := by
  obtain ⟨hput, hprunes⟩ := observe_ok hobs
  obtain ⟨hcount, hcollect⟩ := put_cadence hput
  refine ⟨?_, ?_, ?_⟩
  · rw [Collected, hcollect]
    exact ⟨fun hlt => absurd hlt (lt_irrefl _), fun hpruned => hpruned.1.elim⟩
  · rw [hcount, hprunes, hI.counts]
    rfl
  · rw [hprunes]
    exact hI.range

theorem truncate_zero_inCadence (hgc : 1 ≤ prunesPerGC) {order : SyncMap.RangeOrder String Storage}
    (hobs : observe h (.truncate 0 order) = .ok h') :
    Cadence prunesPerGC h (.truncate 0 order) h' := by
  obtain ⟨htrunc, hprunes⟩ := observe_ok hobs
  rw [prunesAfter, if_pos (Or.inl rfl)] at hprunes
  rw [exec, Store.truncate, if_pos rfl] at htrunc
  have hstore := Except.ok.inj htrunc
  refine ⟨?_, ?_, ?_⟩
  · rw [← hstore]
    exact ⟨fun hlt => absurd hlt (lt_irrefl _), fun hpruned => absurd hpruned.1 (lt_irrefl _)⟩
  · rw [← hstore, hprunes]
    rfl
  · rw [hprunes]
    omega

theorem numberToPrune_eq (count quantity : Int) :
    numberToPrune count quantity = min quantity count := by
  rw [numberToPrune]
  split_ifs <;> omega

theorem cadence_of_emptied (hI : InStep prunesPerGC h) {quantity : Int}
    {order : SyncMap.RangeOrder String Storage} (hq : quantity ≠ 0)
    (hcount : h'.store.counters.consecutiveTruncation = h.store.counters.consecutiveTruncation)
    (hcollect : h'.store.counters.collections = h.store.counters.collections)
    (hsize : size h'.store = 0)
    (hprunes : h'.prunes = prunesAfter h.prunes h.store h'.store (.truncate quantity order)) :
    Cadence prunesPerGC h (.truncate quantity order) h' ↔ size h.store = 0 := by
  have hnot : ¬ Collected h.store h'.store := by
    rw [Collected, hcollect]
    exact lt_irrefl _
  rw [prunesAfter, if_neg (not_or.mpr ⟨hq, hnot⟩), hsize] at hprunes
  constructor
  · intro hc
    by_contra hpos
    rw [if_pos (Nat.pos_of_ne_zero hpos)] at hprunes
    have := hc.counts
    have := hI.counts
    omega
  · intro hzero
    rw [hzero, if_neg (lt_irrefl _)] at hprunes
    refine ⟨⟨fun hcol => absurd hcol hnot, ?_⟩, ?_, ?_⟩
    · rintro ⟨hpruned, _⟩
      rw [Pruned, hzero] at hpruned
      exact absurd hpruned (Nat.not_lt_zero _)
    · rw [hcount, hprunes, hI.counts]
    · rw [hprunes]
      exact hI.range

theorem cadence_of_remaining (hI : InStep prunesPerGC h) (hgc : 1 ≤ prunesPerGC) {quantity : Int}
    {order : SyncMap.RangeOrder String Storage} (hq : quantity ≠ 0) {counters : Counters}
    {timestamp : Int64}
    (hcount : counters.consecutiveTruncation = h.store.counters.consecutiveTruncation)
    (hcollect : counters.collections = h.store.counters.collections)
    (hafter : h'.store.counters = counters.afterPruning h.store.config (some timestamp))
    (hprunes : h'.prunes = prunesAfter h.prunes h.store h'.store (.truncate quantity order)) :
    Cadence prunesPerGC h (.truncate quantity order) h' ↔ size h'.store < size h.store := by
  have hcounts := hI.counts
  have hrange := hI.range
  rw [Counters.afterPruning, hcount, hcollect, hI.config] at hafter
  split_ifs at hafter with hdue
  · have hcol : Collected h.store h'.store := by
      rw [Collected, hafter]
      exact Nat.lt_succ_self _
    rw [prunesAfter, if_pos (Or.inr hcol)] at hprunes
    constructor
    · intro hc
      exact (hc.collects.mp hcol).1
    · intro hpruned
      refine ⟨⟨fun _ => ⟨hpruned, by omega⟩, fun _ => hcol⟩, ?_, ?_⟩
      · rw [hafter, hprunes]
        rfl
      · rw [hprunes]
        omega
  · have hnot : ¬ Collected h.store h'.store := by
      rw [Collected, hafter]
      exact lt_irrefl _
    rw [prunesAfter, if_neg (not_or.mpr ⟨hq, hnot⟩)] at hprunes
    have hnext : h'.store.counters.consecutiveTruncation = h.prunes + 1 := by
      rw [hafter]
      dsimp only
      rw [hcounts]
    constructor
    · intro hc
      by_contra hkept
      rw [if_neg hkept] at hprunes
      have := hc.counts
      omega
    · intro hpruned
      rw [if_pos hpruned] at hprunes
      exact ⟨⟨fun hcol => absurd hcol hnot, fun hfull => by omega⟩, by omega, by omega⟩

theorem observe_cadence_iff (hgc : 1 ≤ prunesPerGC) (hI : InStep prunesPerGC h)
    (hobs : observe h op = .ok h') :
    Cadence prunesPerGC h op h' ↔ LeavesSome h.store op := by
  cases op with
  | put e sourceId => exact ⟨fun _ => trivial, fun _ => put_inCadence hI hobs⟩
  | truncate quantity order =>
      have hle := hI.size_le
      by_cases hq : quantity = 0
      · subst hq
        refine ⟨fun _ => ?_, fun _ => truncate_zero_inCadence hgc hobs⟩
        rw [LeavesSome]
        omega
      · obtain ⟨htrunc, hprunes⟩ := observe_ok hobs
        obtain ⟨xs, t, oldest, hxs, hlen, hoff, hstore⟩ := truncate_outcome hI.nonEmpty hq htrunc
        obtain ⟨hconfig, hcount, hcollect⟩ := Prunes.cadence hxs
        have hsize : size h.store = size h'.store + (min quantity
            h.store.counters.count).toNat := by
          rw [hstore, ← numberToPrune_eq, ← hlen, ← length_entries, (Prunes.entries hxs).length_eq,
            List.length_append, length_entries]
          exact Nat.add_comm _ _
        have hsame : size t = size h'.store := by rw [hstore]; rfl
        rw [hconfig] at hstore
        rw [LeavesSome]
        cases oldest with
        | none =>
            have hzero : size h'.store = 0 := hsame ▸ hoff.mp rfl
            rw [cadence_of_emptied hI hq (by rw [hstore]; exact hcount)
              (by rw [hstore]; exact hcollect) hzero hprunes]
            omega
        | some timestamp =>
            have hpos : size h'.store ≠ 0 :=
              fun hzero => Option.some_ne_none _ (hoff.mpr (hsame.trans hzero))
            rw [cadence_of_remaining hI hgc hq hcount hcollect (by rw [hstore]) hprunes]
            omega

theorem observe_inStep (hI : InStep prunesPerGC h) (hobs : observe h op = .ok h')
    (hc : Cadence prunesPerGC h op h') :
    InStep prunesPerGC h' := by
  obtain ⟨hexec, _⟩ := observe_ok hobs
  have hconfig : h'.store.config.prunesPerGC = prunesPerGC := by rw [exec_config hexec, hI.config]
  cases op with
  | put e sourceId =>
      exact ⟨hconfig, put_nonEmpty hI.nonEmpty hexec, put_size_le hI.size_le hexec,
        hc.counts, hc.range⟩
  | truncate quantity order =>
      have hkept : NonEmpty h'.store ∧ (size h'.store : Int) ≤ h'.store.counters.count := by
        refine truncate_invariant (I := fun s => NonEmpty s ∧
          (size s : Int) ≤ s.counters.count) ?_ ?_
          ⟨hI.nonEmpty, hI.size_le⟩ hexec
        · rintro s sourceId p s' ⟨hne, hle⟩ hr
          have hsize := hr.size
          refine ⟨hr.nonEmpty hne, ?_⟩
          rw [hr.counters, removed]
          dsimp only
          omega
        · rintro s counters ⟨hne, hle⟩ hcount _
          exact ⟨hne, hle.trans_eq hcount.symm⟩
      exact ⟨hconfig, hkept.1, hkept.2, hc.counts, hc.range⟩

end cadence

/-- In a run that goes through, every operation keeps to the cadence exactly if
no truncation empties the store or is asked for less than nothing. -/
theorem gc_cadence_iff (maxPerSource prunesPerGC : Int) (hgc : 1 ≤ prunesPerGC) (ops : List Op)
    (h : History) (hrun : run observe (started maxPerSource prunesPerGC) ops = .ok h) :
    (∀ done op before after, done ++ [op] <+: ops →
      run observe (started maxPerSource prunesPerGC) done = .ok before →
        observe before op = .ok after → Cadence prunesPerGC before op after) ↔
      Along observe (fun h op => LeavesSome h.store op) (started maxPerSource prunesPerGC) ops := by
  refine steps_iff_along (I := InStep prunesPerGC) ?_ ?_ ?_ hrun
  · intro h op h' hI hobs
    exact observe_cadence_iff hgc hI hobs
  · intro h op h' hI hobs hc
    exact observe_inStep hI hobs hc
  · exact ⟨rfl, (fun _ _ hlookup => by cases hlookup), le_rfl, rfl, hgc⟩

theorem gc_cadence_iff_second :
    ∃ h, run observe (started 5 2)
        [.put (bare 1) "a", .put (bare 2) "a", .put (bare 3) "a", .truncate 1 .id,
          .truncate 1 .id] = .ok h ∧
      h.store.counters.collections = 1 ∧
      ∀ done op before after,
        done ++ [op] <+: [.put (bare 1) "a", .put (bare 2) "a", .put (bare 3) "a", .truncate 1 .id,
          .truncate 1 .id] →
        run observe (started 5 2) done = .ok before → observe before op = .ok after →
          Cadence 2 before op after := by
  obtain ⟨h, hrun, hcollections⟩ : ∃ h, run observe (started 5 2)
      [.put (bare 1) "a", .put (bare 2) "a", .put (bare 3) "a", .truncate 1 .id,
        .truncate 1 .id] = .ok h ∧
      h.store.counters.collections = 1 :=
    exists_of_ends (by decide +kernel)
  exact ⟨h, hrun, hcollections, (gc_cadence_iff 5 2 (by decide) _ h hrun).mpr (by decide +kernel)⟩

/-- Every prune is to be followed by a collection. The one that empties the store
is not, and a truncation that removes nothing is, if the quantity is
negative. -/
theorem gc_misses_emptying_prune :
    (∃ before after, run observe (started 5 1) [.put (bare 1) "a"] = .ok before ∧
      observe before (.truncate 1 .id) = .ok after ∧ size before.store = 1 ∧ size after.store = 0 ∧
      after.store.counters.collections = 0 ∧ ¬ Cadence 1 before (.truncate 1 .id) after) ∧
    ∃ before after, run observe (started 5 1) [.put (bare 1) "a"] = .ok before ∧
      observe before (.truncate (-1) .id) = .ok after ∧ size before.store = 1 ∧
        size after.store = 1 ∧
      after.store.counters.collections = 1 ∧ ¬ Cadence 1 before (.truncate (-1) .id) after := by
  constructor
  · obtain ⟨after, hobs, hsize, hcollections⟩ : ∃ after,
        (run observe (started 5 1) [.put (bare 1) "a"] >>=
        fun before => observe before (.truncate 1 .id)) = .ok after ∧ size after.store = 0 ∧
        after.store.counters.collections = 0 :=
      exists_of_ends (by decide +kernel)
    refine ⟨_, after, rfl, hobs, rfl, hsize, hcollections, fun hc => ?_⟩
    have hcollected := hc.collects.mpr ⟨hsize.trans_lt Nat.one_pos, rfl⟩
    rw [Collected, hcollections] at hcollected
    exact Nat.not_lt_zero _ hcollected
  · obtain ⟨after, hobs, hsize, hcollections⟩ : ∃ after,
        (run observe (started 5 1) [.put (bare 1) "a"] >>=
        fun before => observe before (.truncate (-1) .id)) = .ok after ∧ size after.store = 1 ∧
        after.store.counters.collections = 1 :=
      exists_of_ends (by decide +kernel)
    refine ⟨_, after, rfl, hobs, rfl, hsize, hcollections, fun hc => ?_⟩
    have hpruned := (hc.collects.mp (Nat.zero_lt_one.trans_eq hcollections.symm)).1
    rw [Pruned, hsize] at hpruned
    exact absurd hpruned (lt_irrefl _)

end LogCache.GcCadence
