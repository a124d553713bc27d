import LogCache.Selections
import LogCache.StructuralInvariant
import LogCache.UnfudgedStore

namespace LogCache.Retention

open AvlTree Envelopes EnvelopeStore StoreSteps StoreTransitions GetCompleteness UnfudgedStore
  StructuralInvariant
  Selections Runs

/-- What a source that may hold `m` envelopes still holds of those sent to
it: the last one, and the `m - 1` newest of the others. -/
structure Retained (m : Nat) (sent held : List Envelope) : Prop where
  nothing : sent = [] → held = []
  last : ∀ earlier e, sent = earlier ++ [e] →
    ∃ kept, Newest Envelope.timestamp (m - 1) earlier kept ∧ held.Perm (e :: kept)

theorem Retained.roomFor {m : Nat} {sent : List Envelope} {config : Config}
    {tree : Tree Int64 Envelope} (hm : config.maxPerSource = m) (hpos : 1 ≤ m)
    (htree : Unfudged tree) (h : Retained m sent (tree.entries.map Prod.snd)) :
    Newest Envelope.timestamp (m - 1) sent ((StoreSteps.roomFor config tree).entries.map
      Prod.snd) := by
  have hentries := roomFor_entries config tree
  rcases List.eq_nil_or_concat sent with rfl | ⟨earlier, e, hsent⟩
  · have hnil : (StoreSteps.roomFor config tree).entries = [] := by
      rw [List.map_eq_nil_iff.mp (h.nothing rfl)] at hentries
      exact (List.append_eq_nil_iff.mp hentries.symm).2
    rw [hnil]
    exact .of_perm (.refl _) (Nat.zero_le _)
  · rw [List.concat_eq_append] at hsent
    obtain ⟨kept, hkept, hperm⟩ := h.last earlier e hsent
    have hsize : tree.size = min (m - 1) earlier.length + 1 := by
      rw [Tree.size_eq_length, ← List.length_map Prod.snd, hperm.length_eq, List.length_cons,
        hkept.length]
    rw [hm] at hentries
    by_cases hfull : (m : Int) ≤ tree.size
    · obtain ⟨p, hleft⟩ := Option.isSome_iff_exists.mp ((Tree.left_isSome_iff tree).mpr (by omega))
      rw [if_pos hfull, hleft] at hentries
      have hordered := htree.timeOrdered
      rw [hentries] at hperm hordered
      rw [hsent]
      apply hkept.snoc (by omega) hperm
      intro y hy
      obtain ⟨q, hq, rfl⟩ := List.mem_map.mp hy
      exact (List.pairwise_cons.mp hordered).1 q hq
    · rw [if_neg hfull, List.nil_append] at hentries
      rw [← hentries, hsent]
      have hall := hkept.perm (by omega)
      refine .of_perm ((List.perm_append_singleton e earlier).trans ?_) ?_
      · exact (hall.cons e).trans hperm.symm
      · rw [List.length_append, List.length_singleton]
        omega

theorem retained_concat {m : Nat} {sent held : List Envelope} {e : Envelope} {room : List Envelope}
    (hroom : Newest Envelope.timestamp (m - 1) sent room) (hperm : held.Perm (e :: room)) :
    Retained m (sent ++ [e]) held where
  nothing h := absurd h (List.append_ne_nil_of_right_ne_nil _ (List.cons_ne_nil _ _))
  last earlier e' h := by
    obtain ⟨rfl, he⟩ := List.append_inj' h rfl
    cases he
    exact ⟨room, hroom, hperm⟩

def putAll (puts : List (Envelope × String)) : List Op := puts.map fun p => .put p.1 p.2

theorem putAll_retains {m : Nat} (hm : 1 ≤ m) (prunesPerGC : Int) (puts : List (Envelope × String))
    {sourceId : String}
    (hdistinct : ((arrivals sourceId (putAll puts)).map Envelope.timestamp).Nodup) :
    ∃ s, run exec (newStore m prunesPerGC) (putAll puts) = .ok s ∧ Bounded s ∧
      s.config.maxPerSource = m ∧
      Retained m (arrivals sourceId (putAll puts)) (stored s sourceId) := by
  induction puts using List.reverseRecOn with
  | nil =>
      refine ⟨_, rfl, newStore_bounded (Int.ofNat_le.mpr hm) prunesPerGC, rfl, fun _ => rfl, ?_⟩
      intro earlier e h
      exact absurd h (List.append_ne_nil_of_right_ne_nil _ (List.cons_ne_nil _ _)).symm
  | append_singleton puts p ih =>
      obtain ⟨e, src⟩ := p
      have hsplit : putAll (puts ++ [(e, src)]) = putAll puts ++ [.put e src] := List.map_append
      rw [hsplit] at hdistinct ⊢
      have hbefore : ((arrivals sourceId (putAll puts)).map Envelope.timestamp).Nodup := by
        rw [arrivals_concat, List.map_append] at hdistinct
        exact hdistinct.of_append_left
      obtain ⟨t, hrun, hbounded, hconfig, hretained⟩ := ih hbefore
      have hfaithful := faithful_of_distinct hbefore hrun
      obtain ⟨s, hput⟩ :=
        put_ok e (Accounting.storageFor_size hbounded.capacity src hbounded.nonEmpty)
      have hstep : exec t (.put e src) = .ok s := hput
      refine ⟨s, run_snoc hrun hstep, put_bounded hbounded hput,
        (congrArg Config.maxPerSource (exec_config hstep)).trans hconfig, ?_⟩
      rw [arrivals_put]
      split_ifs with hsrc
      · subst hsrc
        exact retained_concat (hretained.roomFor hconfig hm hfaithful.unfudged)
          ((put_fresh (hfaithful.fresh hdistinct) hput).map Prod.snd)
      · rw [List.append_nil, stored, put_other hsrc hput]
        exact hretained

/-- What a source holds after its `n`-th Put `e`, for distinct timestamps in
any order of arrival. -/
theorem put_retains_newest (m : Nat) (hm : 1 ≤ m) (prunesPerGC : Int)
    (puts : List (Envelope × String)) (sourceId : String) (earlier : List Envelope) (e : Envelope)
    (hsent : arrivals sourceId (putAll puts) = earlier ++ [e])
    (hdistinct : ((earlier ++ [e]).map Envelope.timestamp).Nodup) :
    ∃ s, run exec (newStore m prunesPerGC) (putAll puts) = .ok s ∧
      ((earlier ++ [e]).length ≤ m → (stored s sourceId).Perm (earlier ++ [e])) ∧
      (m < (earlier ++ [e]).length → ∃ kept, kept.length = m - 1 ∧
        Newest Envelope.timestamp (m - 1) earlier kept ∧ (stored s sourceId).Perm (e :: kept)) ∧
      ∀ x ∈ earlier, (earlier.filter fun y => x.timestamp < y.timestamp).length < m - 1 →
        x ∈ stored s sourceId := by
  obtain ⟨s, hrun, _, _, hretained⟩ := putAll_retains hm prunesPerGC puts (by rwa [hsent])
  obtain ⟨kept, hkept, hperm⟩ := hretained.last earlier e hsent
  rw [List.length_append, List.length_singleton]
  refine ⟨s, hrun, ?_, ?_, ?_⟩
  · intro hlength
    have hall := hkept.perm (by omega)
    exact hperm.trans ((hall.symm.cons e).trans (List.perm_append_singleton e earlier).symm)
  · intro hlength
    refine ⟨kept, ?_, hkept, hperm⟩
    rw [hkept.length]
    omega
  · intro x hx hfew
    exact hperm.mem_iff.mpr (List.mem_cons_of_mem _ (hkept.mem hx hfew))

theorem put_retains_newest_late :
    ∃ s, run exec (newStore 2 1) (putAll [(bare 5, "a"), (bare 7, "a"), (bare 1, "a")]) = .ok s ∧
      bare 7 ∈ stored s "a" := by
  obtain ⟨s, hrun, _, _, hlate⟩ :=
    put_retains_newest 2 (by decide) 1 [(bare 5, "a"), (bare 7, "a"), (bare 1, "a")] "a"
    [bare 5, bare 7] (bare 1) rfl (by decide)
  exact ⟨s, hrun, hlate (bare 7) (by decide) (by decide)⟩

end LogCache.Retention
