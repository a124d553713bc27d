import LogCache.StructuralInvariant
import LogCache.UnfudgedStore

namespace LogCache.KeyBounds

open AvlTree Envelopes EnvelopeStore StoreSteps StoreTransitions StructuralInvariant GetCompleteness
  UnfudgedStore Runs

variable {s s' : Store} {sourceId : String} {e : Envelope}

section keys

/-- The key is at the timestamp or up to the fudge bound above it, as integers. -/
def Near (key timestamp : Int64) : Prop :=
  timestamp.toInt ≤ key.toInt ∧ key.toInt ≤ timestamp.toInt + 4000

theorem toInt_fudged (timestamp : Int64) {fudge : Nat} (hfudge : fudge ≤ 4000) :
    (timestamp + Int64.ofNat fudge).toInt =
      if timestamp.toInt + fudge < 2 ^ 63 then timestamp.toInt + fudge
      else timestamp.toInt + fudge - 2 ^ 64 := by
  have hlow := timestamp.le_toInt
  have hhigh := timestamp.toInt_lt
  rw [Int64.toInt_add, Int64.toInt_ofNat_of_lt (by omega), Int.bmod_def]
  split_ifs <;> omega

theorem near_fudged_iff (timestamp : Int64) {fudge : Nat} (hfudge : fudge ≤ 4000) :
    Near (timestamp + Int64.ofNat fudge) timestamp ↔ timestamp.toInt + fudge < 2 ^ 63 := by
  rw [Near, toInt_fudged timestamp hfudge]
  split_ifs <;> omega

theorem near_fudgedKey_iff {config : Config} (hconfig : config.maxTimestampFudge = 4000)
    (tree : Tree Int64 Envelope) (timestamp : Int64) :
    Near (fudgedKey config tree timestamp) timestamp ↔
      timestamp.toInt + 4000 < 2 ^ 63 ∨ ∃ key, timestamp ≤ key ∧ tree.get key = none := by
  have hle := (fudgeLoop_bounds tree timestamp 4000 0).2
  rw [fudgedKey, hconfig, near_fudged_iff timestamp hle]
  constructor
  · intro hfits
    rcases hle.lt_or_eq with hlt | heq
    · refine Or.inr ⟨_, ?_, fudgeLoop_free tree timestamp 4000 0 hlt⟩
      rw [Int64.le_iff_toInt_le, toInt_fudged timestamp hle, if_pos hfits]
      omega
    · rw [heq] at hfits
      exact Or.inl hfits
  · rintro (hfits | ⟨key, hkey, hfree⟩)
    · omega
    · by_contra hpast
      rw [Int64.le_iff_toInt_le] at hkey
      have hhigh := key.toInt_lt
      -- A key of the range comes before the place where the loop has ended, so the loop has
      -- looked at it.
      obtain ⟨fudge, hfudge⟩ := Int.eq_ofNat_of_zero_le (sub_nonneg.mpr hkey)
      have hbefore : fudge < fudgeLoop tree timestamp 4000 0 := by omega
      have heq : timestamp + Int64.ofNat fudge = key := by
        rw [← Int64.toInt_inj, toInt_fudged timestamp (by omega), if_pos (by omega)]
        omega
      exact fudgeLoop_taken tree timestamp 4000 0 (Nat.zero_le _) hbefore (heq ▸ hfree)

end keys

section stored

def KeysNear (s : Store) : Prop :=
  ∀ sourceId p, p ∈ (storageFor s sourceId).tree.entries → Near p.1 p.2.timestamp

/-- An entry whose key comes before that of another is not newer by more than
the fudge bound. Eviction and truncation take the entry with the first key. -/
def FirstNotNewest (s : Store) : Prop :=
  ∀ sourceId p sourceId' q, p ∈ (storageFor s sourceId).tree.entries →
    q ∈ (storageFor s sourceId').tree.entries →
    p.1 ≤ q.1 → p.2.timestamp.toInt ≤ q.2.timestamp.toInt + 4000

theorem KeysNear.firstNotNewest (hs : KeysNear s) : FirstNotNewest s := by
  intro sourceId p sourceId' q hp hq hle
  have hp := (hs sourceId p hp).1
  have hq := (hs sourceId' q hq).2
  rw [Int64.le_iff_toInt_le] at hle
  omega

/-- No entry of the source has the key, unless it is the one that makes room. -/
def FreeFor (s : Store) (sourceId : String) (key : Int64) : Prop :=
  (storageFor s sourceId).tree.get key = none ∨
    s.config.maxPerSource ≤ (storageFor s sourceId).tree.size ∧
      ∃ e, (storageFor s sourceId).tree.left = some (key, e)

theorem freeFor_iff (s : Store) (sourceId : String) (key : Int64) :
    FreeFor s sourceId key ↔ (roomFor s.config (storageFor s sourceId).tree).get key = none := by
  rw [FreeFor, roomFor]
  split_ifs with hfull
  · cases hleft : (storageFor s sourceId).tree.left with
    | none => simp
    | some p =>
        obtain ⟨oldestTimestamp, oldest⟩ := p
        rw [Tree.get_remove]
        split_ifs with hkey
        · subst hkey
          exact iff_of_true (Or.inr ⟨hfull, oldest, rfl⟩) rfl
        · refine ⟨?_, Or.inl⟩
          rintro (hfree | ⟨_, e, he⟩)
          · exact hfree
          · cases he
            exact absurd rfl hkey
  · exact ⟨fun h => h.resolve_right fun h => hfull h.1, Or.inl⟩

/-- A Put that does not overflow at the fudge bound, or has a free key up to the
largest of them. -/
def StaysInRange (s : Store) : Op → Prop
  | .put e sourceId =>
      e.timestamp.toInt + 4000 < 2 ^ 63 ∨ ∃ key, e.timestamp ≤ key ∧ FreeFor s sourceId key
  | .truncate _ _ => True

theorem put_keysNear_iff (hconfig : s.config.maxTimestampFudge = 4000) (hs : KeysNear s)
    (h : s.put e sourceId = .ok s') : KeysNear s' ↔ StaysInRange s (.put e sourceId) := by
  have hkey := near_fudgedKey_iff hconfig (roomFor s.config
      (storageFor s sourceId).tree) e.timestamp
  simp only [StaysInRange, freeFor_iff]
  rw [← hkey]
  obtain ⟨counters', storage', hi, rfl⟩ := put_inserted h
  constructor
  · intro hnear
    refine hnear sourceId (fudgedKey s.config
      (roomFor s.config (storageFor s sourceId).tree) e.timestamp, e) ?_
    rw [storageFor_insert, if_pos rfl]
    exact hi.stores
  · intro hnear src p hp
    rw [storageFor_insert] at hp
    split_ifs at hp with hsrc
    · rcases hi.mem_cases hp with rfl | hp
      · exact hnear
      · exact hs sourceId p hp
    · exact hs src p hp

theorem exec_keysNear (hconfig : s.config.maxTimestampFudge = 4000) (hs : KeysNear s) {op : Op}
    (hop : StaysInRange s op) (h : exec s op = .ok s') : KeysNear s' := by
  cases op with
  | put e sourceId => exact (put_keysNear_iff hconfig hs h).mpr hop
  | truncate quantity order =>
      exact fun sourceId p hp => hs sourceId p ((truncate_suffix h sourceId).subset hp)

structure Placed (s : Store) : Prop where
  bounded : Bounded s
  config : s.config.maxTimestampFudge = 4000
  keys : KeysNear s

theorem keys_near_iff (maxPerSource prunesPerGC : Int) (hmax : 1 ≤ maxPerSource) (ops : List Op) :
    (∀ done, done <+: ops → ∀ s, run exec (newStore maxPerSource prunesPerGC) done = .ok s →
      KeysNear s ∧ FirstNotNewest s) ↔ Along exec StaysInRange
        (newStore maxPerSource prunesPerGC) ops := by
  refine reached_iff_along (I := Placed) (fun s hs => ⟨hs.keys, hs.keys.firstNotNewest⟩) ?_ ?_
    ⟨newStore_bounded hmax prunesPerGC, rfl, fun _ _ hp => by cases hp⟩ ops
  · intro s op s' hs hop hexec
    exact ⟨exec_bounded hs.bounded hexec, (exec_config hexec).symm ▸ hs.config,
      exec_keysNear hs.config hs.keys hop hexec⟩
  · intro s op hs hop
    cases op with
    | truncate quantity order => exact absurd trivial hop
    | put e sourceId =>
        obtain ⟨s', hput⟩ :=
          put_ok e (Accounting.storageFor_size hs.bounded.capacity sourceId hs.bounded.nonEmpty)
        exact ⟨s', hput, fun h => hop ((put_keysNear_iff hs.config hs.keys hput).mp h.1)⟩

theorem keys_near_at_end :
    ∃ s, run exec (newStore 3 1) [.put (bare Int64.maxValue) "a", .put (bare 5) "a",
      .truncate 1 .id] = .ok s ∧
      KeysNear s ∧ FirstNotNewest s := by
  obtain ⟨s, hrun⟩ : ∃ s, run exec (newStore 3 1)
      [.put (bare Int64.maxValue) "a", .put (bare 5) "a", .truncate 1 .id] = .ok s :=
    exists_of_isOk (by decide +kernel)
  refine ⟨s, hrun, (keys_near_iff 3 1 (by decide) _).mpr ?_ _ List.prefix_rfl s hrun⟩
  refine ⟨Or.inr ⟨Int64.maxValue, le_rfl, Or.inl rfl⟩, fun _ _ => ?_⟩
  exact ⟨Or.inl (by decide), fun _ _ => ⟨trivial, fun _ _ => trivial⟩⟩

/-- Of two envelopes at the end of the range the second goes to its start, where
the next one to evict is. -/
theorem newest_is_evicted :
    ∃ s, run exec (newStore 3 1)
        [.put (bare 5) "a", .put (bare Int64.maxValue) "a",
          .put (bare Int64.maxValue) "a"] = .ok s ∧
      (storageFor s "a").tree.left = some (Int64.minValue, bare Int64.maxValue) ∧
        ¬ (KeysNear s ∧ FirstNotNewest s) := by
  obtain ⟨s, hrun, hleft⟩ : ∃ s, run exec (newStore 3 1)
      [.put (bare 5) "a", .put (bare Int64.maxValue) "a", .put (bare Int64.maxValue) "a"] = .ok s ∧
        (storageFor s "a").tree.left = some (Int64.minValue, bare Int64.maxValue) :=
          exists_of_ends (by decide +kernel)
  refine ⟨s, hrun, hleft, fun hs => ?_⟩
  have hnear := (hs.1 "a" _ (Tree.mem_of_left hleft)).1
  revert hnear
  decide

/-- Within the fudge bound the keys need not be in the order of the times: the
last of three envelopes of one time has the key 102. -/
example : (run exec (newStore 5 1)
    [.put (bare 100) "a", .put (bare 100) "a", .put (bare 100) "a", .truncate 2 .id,
      .put (bare 101) "a"]).toOption.map
      (fun s => (storageFor s "a").tree.entries) = some [(101, bare 101), (102, bare 100)] := by
  decide +kernel

end stored

end LogCache.KeyBounds
