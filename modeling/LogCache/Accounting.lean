import LogCache.Truncation

namespace LogCache.Accounting

open AvlTree Envelopes EnvelopeStore StoreSteps StoreTransitions Truncation Runs

/-- A store with the history the accounts refer to: how many Puts there were,
and how many went to each source since its tree was created. -/
structure Ledger where
  store : Store
  puts : Nat
  sinceCreated : String → Nat

def opened (maxPerSource prunesPerGC : Int) : Ledger :=
  ⟨newStore maxPerSource prunesPerGC, 0, fun _ => 0⟩

def Ledger.putTo (l : Ledger) (sourceId : String) : Nat :=
  match l.store.storageIndex.lookup sourceId with
  | some _ => l.sinceCreated sourceId + 1
  | none => 1

def record (l : Ledger) : Op → Except Panic Ledger
  | .put e sourceId => do
      let s ← l.store.put e sourceId
      return ⟨s, l.puts + 1, Function.update l.sinceCreated sourceId (l.putTo sourceId)⟩
  | .truncate quantity order => do
      let s ← l.store.truncate quantity order
      return { l with store := s }

theorem record_store (l : Ledger) (op : Op) : Ledger.store <$> record l op = exec l.store op := by
  cases op with
  | put e sourceId =>
      rw [record, exec]
      cases l.store.put e sourceId <;> rfl
  | truncate quantity order =>
      rw [record, exec]
      cases l.store.truncate quantity order <;> rfl

structure Reconciled (l : Ledger) : Prop where
  count : l.store.counters.count = size l.store
  puts : l.puts = size l.store + l.store.counters.expired
  source : ∀ sourceId storage, l.store.storageIndex.lookup sourceId = some storage →
    l.sinceCreated sourceId = storage.tree.size + storage.metaInfo.expired

/-- A Put finds a key within the fudge bound that is not taken, once the source
has made room. -/
def HasFreeKey (s : Store) : Op → Prop
  | .put e sourceId => FreeKey s.config (roomFor s.config (storageFor s sourceId).tree) e.timestamp
  | .truncate _ _ => True

structure Sound (l : Ledger) : Prop where
  reconciled : Reconciled l
  nonEmpty : NonEmpty l.store
  capacity : 1 ≤ l.store.config.maxPerSource

theorem size_eq (s : Store) (sourceId : String) :
    size s = (storageFor s sourceId).tree.size +
      SyncMap.total (fun storage => storage.tree.size) (s.storageIndex.erase sourceId) := by
  rw [storageFor]
  cases hlookup : s.storageIndex.lookup sourceId with
  | none =>
      rw [SyncMap.erase_of_lookup_none hlookup]
      exact (Nat.zero_add _).symm
  | some storage => exact SyncMap.total_of_lookup _ hlookup

theorem size_insert (s : Store) (config : Config) (counters : Counters) (sourceId : String)
    (storage : Storage) :
    size ⟨config, counters, s.storageIndex.insert sourceId storage⟩ + (storageFor s
      sourceId).tree.size =
      size s + storage.tree.size := by
  have h := SyncMap.total_insert (fun storage : Storage => storage.tree.size) s.storageIndex
      sourceId storage
  rw [size_eq s sourceId, size, h]
  omega

theorem storageFor_size {s : Store} (hm : 1 ≤ s.config.maxPerSource) (sourceId : String)
    (hne : NonEmpty s) :
    (storageFor s sourceId).tree.size < s.config.maxPerSource ∨
      0 < (storageFor s sourceId).tree.size := by
  rw [storageFor]
  cases hlookup : s.storageIndex.lookup sourceId with
  | none => exact Or.inl (Int.lt_of_lt_of_le Int.zero_lt_one hm)
  | some storage => exact Or.inr (hne sourceId storage hlookup)

theorem Sound.putTo {l : Ledger} (hl : Sound l) (sourceId : String) :
    l.putTo sourceId = (storageFor l.store sourceId).tree.size +
      (storageFor l.store sourceId).metaInfo.expired + 1 := by
  rw [Ledger.putTo, storageFor]
  cases hlookup : l.store.storageIndex.lookup sourceId with
  | none => rfl
  | some storage => exact congrArg (· + 1) (hl.reconciled.source sourceId storage hlookup)

theorem record_put_eq {l : Ledger} {s' : Store} {e : Envelope} {sourceId : String}
    (h : l.store.put e sourceId = .ok s') : record l (.put e sourceId) =
      .ok ⟨s', l.puts + 1, Function.update l.sinceCreated sourceId (l.putTo sourceId)⟩ := by
  rw [record, h]
  rfl

theorem record_put {l : Ledger} (hl : Sound l) (e : Envelope) (sourceId : String)
    (hfree : HasFreeKey l.store (.put e sourceId)) :
    ∃ l', record l (.put e sourceId) = .ok l' ∧ Sound l' := by
  obtain ⟨s', hput⟩ := put_ok e (storageFor_size hl.capacity sourceId hl.nonEmpty)
  obtain ⟨counters', storage', hi, rfl⟩ := put_inserted hput
  have hgrow := size_insert l.store l.store.config counters' sourceId storage'
  have hsize := hi.size hfree
  refine ⟨_, record_put_eq hput, ⟨?_, ?_, ?_⟩, put_nonEmpty hl.nonEmpty hput, hl.capacity⟩
  · have hcount := hi.count
    have := hl.reconciled.count
    simp only [received] at hcount ⊢
    omega
  · have hexpired := hi.expired
    have := hl.reconciled.puts
    simp only [received] at hexpired ⊢
    omega
  · refine SyncMap.forall_insert ?_ fun src storage hs hlookup => ?_
    · have := hi.sourceExpired
      dsimp only
      rw [Function.update_self, hl.putTo]
      omega
    · dsimp only
      rw [Function.update_of_ne hs]
      exact hl.reconciled.source src storage hlookup

theorem record_put_not_free {l l' : Ledger} (hl : Sound l) {e : Envelope} {sourceId : String}
    (hfree : ¬ HasFreeKey l.store (.put e sourceId)) (h : record l (.put e sourceId) = .ok l') :
    l'.store.counters.count = size l'.store + 1 := by
  rw [record] at h
  obtain ⟨s', hput, h⟩ := bind_ok h
  cases h
  obtain ⟨counters', storage', hi, rfl⟩ := put_inserted hput
  have hgrow := size_insert l.store l.store.config counters' sourceId storage'
  have hsize := hi.size_of_not_free hfree
  have hcount := hi.count
  have := hl.reconciled.count
  simp only [received] at hcount ⊢
  omega

theorem Removes.sound {l : Ledger} {s' : Store} {sourceId : String} {p : Int64 × Envelope}
    (hl : Sound l) (hr : Removes l.store sourceId p s') : Sound { l with store := s' } := by
  have hsize := hr.size
  have hc := hl.reconciled.count
  have hp := hl.reconciled.puts
  have hcounters := hr.counters
  refine ⟨⟨?_, ?_, ?_⟩, hr.nonEmpty hl.nonEmpty, ?_⟩
  · dsimp only
    rw [hcounters, removed]
    dsimp only
    omega
  · dsimp only
    rw [hcounters, removed]
    dsimp only
    omega
  · intro src storage hlookup
    rcases hr.lookup hlookup with h | ⟨rfl, before, hb, he, _, hx, _⟩
    · exact hl.reconciled.source src storage h
    · have hlen := congrArg List.length he
      rw [List.length_cons, ← Tree.size_eq_length, ← Tree.size_eq_length] at hlen
      have := hl.reconciled.source src before hb
      dsimp only
      omega
  · rw [hr.config]
    exact hl.capacity

theorem record_truncate {l : Ledger} (hl : Sound l) (quantity : Int)
    (order : SyncMap.RangeOrder String Storage) :
    ∃ l', record l (.truncate quantity order) = .ok l' ∧ Sound l' := by
  obtain ⟨xs, t, counters, hok, _⟩ := truncate_ok hl.nonEmpty hl.reconciled.count quantity order
  refine ⟨{ l with store := { t with counters := counters } }, by rw [record, hok]; rfl, ?_⟩
  refine truncate_invariant (I := fun s => Sound { l with store := s }) ?_ ?_ hl hok
  · intro s sourceId p s' hs hr
    exact Removes.sound (l := { l with store := s }) hs hr
  · rintro s counters ⟨⟨hc, hp, hsrc⟩, hne, hm⟩ hcount hexpired
    exact ⟨⟨hcount.trans hc, by rw [hexpired]; exact hp, hsrc⟩, hne, hm⟩

theorem opened_sound {maxPerSource : Int} (hm : 1 ≤ maxPerSource) (prunesPerGC : Int) :
    Sound (opened maxPerSource prunesPerGC) := by
  refine ⟨⟨rfl, rfl, ?_⟩, ?_, hm⟩
  · intro sourceId storage h
    cases h
  · intro sourceId storage h
    cases h

/-- The accounts are right after every operation exactly if every Put finds a
free key. -/
theorem accounting_iff_free_keys (maxPerSource prunesPerGC : Int) (hm : 1 ≤ maxPerSource)
    (ops : List Op) :
    (∀ done, done <+: ops → ∃ l, run record (opened maxPerSource prunesPerGC) done = .ok l ∧
      Reconciled l) ↔
      Along record (fun l op => HasFreeKey l.store op) (opened maxPerSource prunesPerGC) ops := by
  refine prefixes_iff_along (fun l (hl : Sound l) => hl.reconciled) ?_ ?_
    (opened_sound hm prunesPerGC) ops
  · intro l op hl hfree
    cases op with
    | put e sourceId => exact record_put hl e sourceId hfree
    | truncate quantity order => exact record_truncate hl quantity order
  · intro l op l' hl hfree hstep hacc
    cases op with
    | put e sourceId =>
        have := record_put_not_free hl hfree hstep
        have := hacc.count
        omega
    | truncate quantity order => exact hfree trivial

def timestampFree (s : Store) : Op → Bool
  | .put e sourceId => ((roomFor s.config (storageFor s sourceId).tree).get e.timestamp).isNone
  | .truncate _ _ => true

theorem hasFreeKey_of_timestampFree {s : Store} {op : Op} (h : timestampFree s op = true) :
    HasFreeKey s op := by
  cases op with
  | put e sourceId =>
      refine ⟨0, Nat.zero_le _, ?_⟩
      rw [show e.timestamp + Int64.ofNat 0 = e.timestamp from Int64.add_zero _]
      exact Option.isNone_iff_eq_none.mp h
  | truncate quantity order => trivial

theorem along_hasFreeKey {l : Ledger} {ops : List Op}
    (h : Along record (fun l op => timestampFree l.store op = true) l ops) :
    Along record (fun l op => HasFreeKey l.store op) l ops :=
  h.mono fun _ _ => hasFreeKey_of_timestampFree

def evictedAndPruned : List Op :=
  [.put (bare 1) "a", .put (bare 2) "a", .put (bare 3) "a", .put (bare 4) "b", .truncate 1 .id]

theorem accounting_iff_free_keys_pruned : (1 : Int) ≤ 2 ∧ ∃ l,
    run record (opened 2 1) evictedAndPruned = .ok l ∧ Reconciled l ∧ l.puts = 4 ∧
      size l.store = 2 ∧ l.store.counters.expired = 2 := by
  have hfree : Along record (fun l op => HasFreeKey l.store op) (opened 2 1) evictedAndPruned :=
    along_hasFreeKey (by decide +kernel)
  obtain ⟨l, hrun, hreconciled⟩ := (accounting_iff_free_keys 2 1 (by decide) evictedAndPruned).mpr
    hfree _ (List.prefix_refl _)
  obtain ⟨l', hrun', hcounts⟩ : ∃ l', run record (opened 2 1) evictedAndPruned = .ok l' ∧
      l'.puts = 4 ∧ size l'.store = 2 ∧ l'.store.counters.expired = 2 :=
    exists_of_ends (by decide +kernel)
  cases hrun.symm.trans hrun'
  exact ⟨by decide, l, hrun, hreconciled, hcounts⟩

theorem ofNat_inj_of_le {g n : Nat} (hg : g ≤ 4000) (hn : n ≤ 4000)
    (h : (0 : Int64) + Int64.ofNat g = 0 + Int64.ofNat n) : g = n := by
  rw [Int64.zero_add, Int64.zero_add] at h
  have h' := congrArg Int64.toInt h
  rw [Int64.toInt_ofNat_of_lt (by omega), Int64.toInt_ofNat_of_lt (by omega)] at h'
  omega

theorem fudgedKey_eq {config : Config} {tree : Tree Int64 Envelope} {timestamp : Int64} {n : Nat}
    (hn : n ≤ config.maxTimestampFudge)
    (h : ∀ g ≤ config.maxTimestampFudge, tree.get (timestamp + Int64.ofNat g) = none ↔ n ≤ g) :
    fudgedKey config tree timestamp = timestamp + Int64.ofNat n := by
  have hb := (fudgeLoop_bounds tree timestamp config.maxTimestampFudge 0).2
  rw [Nat.zero_add] at hb
  obtain hlt | heq | hgt :=
    Nat.lt_trichotomy (fudgeLoop tree timestamp config.maxTimestampFudge 0) n
  · have hfree := fudgeLoop_free tree timestamp config.maxTimestampFudge 0 (by omega)
    exact absurd ((h _ hb).mp hfree) (Nat.not_le.mpr hlt)
  · rw [fudgedKey, heq]
  · exact absurd ((h n hn).mpr le_rfl) (fudgeLoop_taken tree timestamp _ 0 (Nat.zero_le _) hgt)

structure Filled (l : Ledger) (n : Nat) : Prop where
  sound : Sound l
  config : l.store.config = ⟨100000, 4000, 1⟩
  count : l.store.counters.count = n
  size : (storageFor l.store "a").tree.size = n
  taken : ∀ g ≤ 4000, (storageFor l.store "a").tree.get (0 + Int64.ofNat g) = none ↔ n ≤ g

theorem Filled.roomFor {l : Ledger} {n : Nat} (h : Filled l n) (hn : n ≤ 4001) :
    roomFor l.store.config (storageFor l.store "a").tree = (storageFor l.store "a").tree := by
  rw [StoreSteps.roomFor, if_neg]
  rw [h.size, h.config]
  dsimp only
  omega

theorem Filled.put {l : Ledger} {n : Nat} (h : Filled l n) (hn : n ≤ 4000) :
    ∃ l', record l (.put (bare 0) "a") = .ok l' ∧ Filled l' (n + 1) := by
  have hroom := h.roomFor (by omega)
  have hfree : HasFreeKey l.store (.put (bare 0) "a") := by
    refine ⟨n, by rw [h.config]; exact hn, ?_⟩
    rw [hroom]
    exact (h.taken n hn).mpr le_rfl
  obtain ⟨l', hrec, hsound⟩ := record_put h.sound (bare 0) "a" hfree
  refine ⟨l', hrec, ?_⟩
  rw [record] at hrec
  obtain ⟨s', hput, hl'⟩ := bind_ok hrec
  cases hl'
  obtain ⟨counters', storage', hi, rfl⟩ := put_inserted hput
  have hst : storageFor ⟨l.store.config, counters', l.store.storageIndex.insert "a" storage'⟩ "a" =
      storage' := by
    rw [storageFor, AList.lookup_insert]
    rfl
  have hsize := hi.size hfree
  have hcount := hi.count
  have htree := hi.tree
  rw [hroom, fudgedKey_eq (n := n) (by rw [h.config]; exact hn)
    (by rw [h.config]; exact h.taken)] at htree
  rw [hroom] at hsize hcount
  have hs := h.size
  have hc := h.count
  simp only [received] at hcount
  refine ⟨hsound, h.config, by dsimp only; omega, by rw [hst]; omega, fun g hg => ?_⟩
  rw [hst, htree, Tree.get_put]
  split_ifs with heq
  · have := ofNat_inj_of_le hg hn heq
    simp only [false_iff]
    omega
  · rw [h.taken g hg]
    have hne : g ≠ n := by
      rintro rfl
      exact heq rfl
    omega

theorem filled_run {n : Nat} (hn : n ≤ 4001) :
    ∃ l, run record (opened 100000 1) (List.replicate n (.put (bare 0) "a")) = .ok l ∧
      Filled l n := by
  induction n with
  | zero =>
      refine ⟨opened 100000 1, rfl, opened_sound (by decide) 1, rfl, rfl, rfl, fun g _ => ?_⟩
      exact ⟨fun _ => Nat.zero_le g, fun _ => rfl⟩
  | succ n ih =>
      obtain ⟨l, hl, hf⟩ := ih (by omega)
      obtain ⟨l', hl', hf'⟩ := hf.put (by omega)
      refine ⟨l', ?_, hf'⟩
      rw [List.replicate_succ']
      exact run_snoc hl hl'

/-- With room for 100000 envelopes, the 4002nd Put of one timestamp overwrites
an envelope that stays in the count. -/
theorem count_off_after_equal_timestamps :
    ∃ l, run record (opened 100000 1) (List.replicate 4002 (.put (bare 0) "a")) = .ok l ∧
      l.store.counters.count = 4002 ∧ size l.store = 4001 := by
  obtain ⟨l, hl, hf⟩ := filled_run (n := 4001) le_rfl
  have hroom := hf.roomFor le_rfl
  have hfree : ¬ HasFreeKey l.store (.put (bare 0) "a") := by
    rintro ⟨g, hg, hget⟩
    rw [hf.config] at hg
    rw [hroom] at hget
    have := (hf.taken g hg).mp hget
    dsimp only at hg
    omega
  obtain ⟨s', hput⟩ := put_ok (bare 0) (storageFor_size hf.sound.capacity "a" hf.sound.nonEmpty)
  have hrec := record_put_eq (l := l) hput
  have hoff := record_put_not_free hf.sound hfree hrec
  obtain ⟨counters', storage', hi, rfl⟩ := put_inserted hput
  have hcount := hi.count
  have := hf.count
  rw [hroom] at hcount
  simp only [received] at hcount
  dsimp only at hoff
  refine ⟨_, by rw [List.replicate_succ']; exact run_snoc hl hrec, ?_, ?_⟩
  · dsimp only
    omega
  · dsimp only
    omega

end LogCache.Accounting
