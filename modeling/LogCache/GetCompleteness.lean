import LogCache.Traversal

namespace LogCache.GetCompleteness

open AvlNode AvlTree Envelopes EnvelopeStore StoreSteps StoreTransitions Traversal Runs

def firstSide (descending : Bool) : Side := if descending then .right else .left

def skips (descending : Bool) (start stop t : Int64) : Bool :=
  if descending then !decide (t < stop) else !decide (start ≤ t)

def passes (descending : Bool) (start stop t : Int64) : Bool :=
  if descending then decide (t < start) else decide (stop ≤ t)

section page

variable (want : Envelope → Bool) (past : Int64 → Bool) (limit : Int)

def wanted (v : Visit) : Bool := !past v.envelope.timestamp && want v.envelope

def taken (res : List Envelope) (v : Visit) : List Envelope :=
  if wanted want past v then res ++ [v.envelope] else res

def ends (res : List Envelope) (v : Visit) : Bool :=
  (past v.envelope.timestamp || decide (limit ≤ res.length)) && !v.member

/-- What one call of `Get` collects, node by node, when every wanted envelope
is taken whole. -/
def pageOf : List Envelope → List Visit → List Envelope
  | res, [] => res
  | res, v :: vs =>
      if ends past limit (taken want past res v) v then taken want past res v
      else pageOf (taken want past res v) vs

end page

variable {want : Envelope → Bool} {past : Int64 → Bool} {limit : Int} {res : List Envelope}
    {vs : List Visit}

theorem visitStep_collect {types : Option (List EnvelopeType)}
    (hwant : ∀ e, validEnvelopeType e types = .ok (want e)) (past : Int64 → Bool) (limit : Int)
    (v : Visit) (res : List Envelope) :
    visitStep past (collect types none limit) v res =
      .ok (ends past limit (taken want past res v) v, taken want past res v) := by
  cases hp : past v.envelope.timestamp with
  | true =>
      have htaken : taken want past res v = res := by simp [taken, wanted, hp]
      have hends : ends past limit res v = !v.member := by simp [ends, hp]
      rw [visitStep_of_past hp, htaken, hends]
      rfl
  | false =>
      have hcollect : collect types none limit v.envelope res =
          .ok (decide (limit ≤ (taken want past res v).length), taken want past res v) := by
        simp [collect, filterByName, hwant, taken, wanted, hp, pure, Except.pure, bind, Except.bind]
      have hends : ends past limit (taken want past res v) v =
          (decide (limit ≤ (taken want past res v).length) && !v.member) := by simp [ends, hp]
      rw [visitStep_of_not_past hp, hends]
      change collect types none limit v.envelope res >>= _ = _
      rw [hcollect]
      rfl

theorem anyM_collect {types : Option (List EnvelopeType)}
    (hwant : ∀ e, validEnvelopeType e types = .ok (want e)) (past : Int64 → Bool) (limit : Int)
    (vs : List Visit) (res : List Envelope) :
    ∃ b, vs.anyM (visitStep past (collect types none limit)) res =
      .ok (b, pageOf want past limit res vs) := by
  induction vs generalizing res with
  | nil => exact ⟨false, rfl⟩
  | cons v vs ih =>
      rw [anyM_cons_of_ok (visitStep_collect hwant past limit v res), pageOf]
      split_ifs
      · exact ⟨true, rfl⟩
      · exact ih _

theorem get_of_lookup {s : Store} {index : String} {storage : Storage}
    (hlookup : s.storageIndex.lookup index = some storage) {types : Option (List EnvelopeType)}
    (hwant : ∀ e, validEnvelopeType e types = .ok (want e)) (start stop : Int64)
    (limit : Int) (descending : Bool) :
    get s index start stop types none limit descending =
      .ok (pageOf want (passes descending start stop) limit []
        (reached (firstSide descending) (skips descending start stop) storage.tree.root)) := by
  obtain ⟨b, hb⟩ := anyM_collect hwant (passes descending start stop) limit
    (reached (firstSide descending) (skips descending start stop) storage.tree.root) []
  rw [Traversal.get, hlookup]
  cases descending with
  | false =>
      simp only [Bool.false_eq_true, if_false]
      rw [treeAscTraverse_eq]
      exact congrArg (· >>= fun r => pure r.2) hb
  | true =>
      simp only [if_true]
      rw [treeDescTraverse_eq]
      exact congrArg (· >>= fun r => pure r.2) hb

theorem get_storageFor (s : Store) (index : String) {types : Option (List EnvelopeType)}
    (hwant : ∀ e, validEnvelopeType e types = .ok (want e)) (start stop : Int64) (limit : Int)
    (descending : Bool) :
    get s index start stop types none limit descending =
      .ok (pageOf want (passes descending start stop) limit []
        (reached (firstSide descending) (skips descending start stop)
          (storageFor s index).tree.root)) := by
  cases hlookup : s.storageIndex.lookup index with
  | none =>
      rw [Traversal.get, storageFor, hlookup]
      rfl
  | some storage =>
      rw [get_of_lookup hlookup hwant, storageFor, hlookup]
      rfl

theorem map_visits_left (n : Node Int64 Envelope) :
    (visits .left n).map (fun v => (v.key, v.envelope)) = n.toList := by
  induction n with
  | nil => rfl
  | node l k e r b ihl ihr => simp [visits, Node.toList, ihl, ihr]

theorem map_visits_right (n : Node Int64 Envelope) :
    (visits .right n).map (fun v => (v.key, v.envelope)) = n.toList.reverse := by
  induction n with
  | nil => rfl
  | node l k e r b ihl ihr => simp [visits, Node.toList, ihl, ihr]

theorem reached_eq_filter (near : Side) (skip : Int64 → Bool) (n : Node Int64 Envelope)
    (h : (visits near n).Pairwise fun v w => skip w.envelope.timestamp →
      skip v.envelope.timestamp) :
    reached near skip n = (visits near n).filter fun v => !skip v.envelope.timestamp := by
  induction n using Node.side_induction near with
  | nil => rfl
  | node l k e r b ihnear ihfar =>
      rw [visits_node, List.pairwise_append] at h
      obtain ⟨hnear, hfar, hcross⟩ := h
      rw [reached_node, visits_node, List.filter_append, ihnear hnear, ihfar hfar.of_cons]
      cases hs : skip e.timestamp with
      | false => simp [hs]
      | true =>
          have hnil : (visits near (Node.child near (.node l k e r b))).filter
              (fun v => !skip v.envelope.timestamp) = [] := by
            apply List.filter_eq_nil_iff.mpr
            intro v hv
            simpa using hcross v hv _ List.mem_cons_self hs
          simp [hs, hnil]

theorem taken_append_filter (v : Visit) :
    taken want past res v ++ (vs.filter (wanted want past)).map Visit.envelope =
      res ++ ((v :: vs).filter (wanted want past)).map Visit.envelope := by
  rw [taken, List.filter_cons]
  split_ifs <;> simp

theorem pageOf_complete
    (hpast : vs.Pairwise fun v w => past v.envelope.timestamp → past w.envelope.timestamp)
    (hlimit : ((res ++ (vs.filter (wanted want past)).map Visit.envelope).length : Int) ≤ limit) :
    pageOf want past limit res vs = res ++ (vs.filter (wanted want past)).map Visit.envelope := by
  induction vs generalizing res with
  | nil => simp [pageOf]
  | cons v vs ih =>
      obtain ⟨hv, hvs⟩ := List.pairwise_cons.mp hpast
      rw [← taken_append_filter] at hlimit ⊢
      rw [pageOf]
      split_ifs with hend
      · suffices hnil : vs.filter (wanted want past) = [] by simp [hnil]
        -- the traversal ends past the range or at the limit: either way nothing wanted is left
        rw [ends, Bool.and_eq_true, Bool.or_eq_true, decide_eq_true_eq] at hend
        rcases hend.1 with hp | hfull
        · apply List.filter_eq_nil_iff.mpr
          intro w hw
          simp [wanted, hv w hw hp]
        · rw [List.length_append, List.length_map] at hlimit
          apply List.eq_nil_of_length_eq_zero
          omega
      · exact ih hvs hlimit

def TimeOrdered (tree : Tree Int64 Envelope) : Prop :=
  tree.entries.Pairwise fun p q => p.2.timestamp ≤ q.2.timestamp

theorem visits_of_entries {tree : Tree Int64 Envelope} (ht : TimeOrdered tree) (descending : Bool)
    {R : Int64 → Int64 → Prop} (hR : ∀ t u, (if descending then u ≤ t else t ≤ u) → R t u) :
    (visits (firstSide descending) tree.root).Pairwise fun v w =>
      R v.envelope.timestamp w.envelope.timestamp := by
  rw [TimeOrdered, Tree.entries] at ht
  cases descending with
  | false =>
      rw [← map_visits_left, List.pairwise_map] at ht
      exact ht.imp fun h => hR _ _ h
  | true =>
      rw [← List.pairwise_reverse, ← map_visits_right, List.pairwise_map] at ht
      exact ht.imp fun h => hR _ _ h

theorem visits_perm (descending : Bool) (tree : Tree Int64 Envelope) :
    ((visits (firstSide descending) tree.root).map Visit.envelope).Perm
      (tree.entries.map Prod.snd) := by
  have hcomp : ∀ vs : List Visit, vs.map Visit.envelope =
      (vs.map fun v => (v.key, v.envelope)).map Prod.snd := by
    intro vs
    rw [List.map_map]
    rfl
  rw [hcomp]
  cases descending with
  | false => exact .of_eq (congrArg _ (map_visits_left _))
  | true => exact ((List.Perm.of_eq (map_visits_right _)).trans (List.reverse_perm _)).map _

def stored (s : Store) (sourceId : String) : List Envelope :=
  (storageFor s sourceId).tree.entries.map Prod.snd

def inRange (start stop : Int64) (e : Envelope) : Bool :=
  decide (start ≤ e.timestamp) && decide (e.timestamp < stop)

theorem wanted_of_not_skipped (descending : Bool) (start stop : Int64) (e : Envelope) :
    (!skips descending start stop e.timestamp && !passes descending start stop e.timestamp) =
      inRange start stop e := by
  cases descending with
  | false =>
      rw [Bool.eq_iff_iff]
      simp [skips, passes, inRange]
  | true =>
      rw [Bool.eq_iff_iff]
      simp [skips, passes, inRange, and_comm]

theorem skips_of_le {descending : Bool} {start stop t u : Int64}
    (h : if descending then u ≤ t else t ≤ u) (hu : skips descending start stop u) :
    skips descending start stop t := by
  cases descending with
  | false =>
      simp only [skips, Bool.false_eq_true, if_false, Bool.not_eq_true',
        decide_eq_false_iff_not] at h hu ⊢
      exact fun ht => hu (ht.trans h)
  | true =>
      simp only [skips, if_true, Bool.not_eq_true', decide_eq_false_iff_not] at h hu ⊢
      exact fun ht => hu (h.trans_lt ht)

theorem passes_of_le {descending : Bool} {start stop t u : Int64}
    (h : if descending then u ≤ t else t ≤ u) (ht : passes descending start stop t) :
    passes descending start stop u := by
  cases descending with
  | false =>
      simp only [passes, Bool.false_eq_true, if_false, decide_eq_true_eq] at h ht ⊢
      exact ht.trans h
  | true =>
      simp only [passes, if_true, decide_eq_true_eq] at h ht ⊢
      exact h.trans_lt ht

theorem reached_of_timeOrdered {tree : Tree Int64 Envelope} (ht : TimeOrdered tree)
    (descending : Bool) (start stop : Int64) :
    reached (firstSide descending) (skips descending start stop) tree.root =
      (visits (firstSide descending) tree.root).filter fun v =>
        !skips descending start stop v.envelope.timestamp :=
  reached_eq_filter _ _ _ (visits_of_entries ht descending fun _ _ => skips_of_le)

theorem passes_pairwise {tree : Tree Int64 Envelope} (ht : TimeOrdered tree) (descending : Bool)
    (start stop : Int64) :
    (visits (firstSide descending) tree.root).Pairwise fun v w =>
      passes descending start stop v.envelope.timestamp →
        passes descending start stop w.envelope.timestamp :=
  visits_of_entries ht descending fun _ _ => passes_of_le

theorem filter_wanted (want : Envelope → Bool) (descending : Bool) (start stop : Int64)
    (vs : List Visit) :
    ((vs.filter fun v => !skips descending start stop v.envelope.timestamp).filter
        (wanted want (passes descending start stop))).map Visit.envelope =
      (vs.map Visit.envelope).filter fun e => inRange start stop e && want e := by
  rw [List.filter_filter, List.filter_map]
  congr 2
  funext v
  rw [Function.comp_apply, ← wanted_of_not_skipped descending, wanted, Bool.and_comm,
    Bool.and_assoc]

theorem get_of_timeOrdered {s : Store} {index : String} (ht : TimeOrdered (storageFor s index).tree)
    (start stop : Int64) {limit : Int} (hlimit : ((stored s index).length : Int) ≤ limit)
    (descending : Bool) :
    ∃ res, get s index start stop none none limit descending = .ok res ∧
      res.Perm ((stored s index).filter (inRange start stop)) := by
  have hwant : ∀ e, validEnvelopeType e none = .ok ((fun _ => true) e) := fun _ => rfl
  have hperm := (visits_perm descending (storageFor s index).tree).filter fun e =>
      inRange start stop e && true
  rw [← filter_wanted (fun _ => true) descending] at hperm
  simp only [Bool.and_true] at hperm
  refine ⟨_, get_storageFor s index hwant start stop limit descending, ?_⟩
  rw [reached_of_timeOrdered ht, pageOf_complete
    ((passes_pairwise ht descending start stop).filter _), List.nil_append]
  · exact hperm
  · rw [List.nil_append, hperm.length_eq]
    exact (Int.ofNat_le.mpr (List.length_filter_le _ _)).trans hlimit

def OrderedStore (s : Store) : Prop :=
  ∀ sourceId storage, s.storageIndex.lookup sourceId = some storage → TimeOrdered storage.tree

/-- A key lies between the entries that are not newer than a timestamp and
those that are not older. -/
def Fits (tree : Tree Int64 Envelope) (key timestamp : Int64) : Prop :=
  ∀ p ∈ tree.entries, (p.1 < key → p.2.timestamp ≤ timestamp) ∧
    (key < p.1 → timestamp ≤ p.2.timestamp)

/-- The first free key that a Put finds fits the timestamps around it. -/
def KeepsOrder (s : Store) : Op → Prop
  | .put e sourceId =>
      let tree := roomFor s.config (storageFor s sourceId).tree
      Fits tree (fudgedKey s.config tree e.timestamp) e.timestamp
  | .truncate _ _ => True

instance (tree : Tree Int64 Envelope) (key timestamp : Int64) :
    Decidable (Fits tree key timestamp) :=
  inferInstanceAs (Decidable (∀ p ∈ tree.entries,
    (p.1 < key → p.2.timestamp ≤ timestamp) ∧ (key < p.1 → timestamp ≤ p.2.timestamp)))

instance (s : Store) : (op : Op) → Decidable (KeepsOrder s op)
  | .put e sourceId =>
      inferInstanceAs (Decidable (Fits (roomFor s.config (storageFor s sourceId).tree)
      (fudgedKey s.config (roomFor s.config (storageFor s sourceId).tree) e.timestamp) e.timestamp))
  | .truncate _ _ => inferInstanceAs (Decidable True)

theorem roomFor_sublist (config : Config) (tree : Tree Int64 Envelope) :
    (roomFor config tree).entries.Sublist tree.entries := by
  rw [roomFor_entries config tree]
  exact List.sublist_append_right _ _

theorem timeOrdered_put {tree : Tree Int64 Envelope} (ht : TimeOrdered tree) {key : Int64}
    {e : Envelope} (h : Fits tree key e.timestamp) : TimeOrdered (tree.put key e) := by
  rw [TimeOrdered, Tree.entries_put, Node.putList, List.pairwise_append, List.pairwise_cons]
  refine ⟨ht.filter _, ⟨?_, ht.filter _⟩, ?_⟩
  · intro q hq
    rw [List.mem_filter, decide_eq_true_eq] at hq
    exact (h q hq.1).2 hq.2
  · intro p hp q hq
    rw [List.mem_filter, decide_eq_true_eq] at hp
    have hpe := (h p hp.1).1 hp.2
    rcases List.mem_cons.mp hq with rfl | hq
    · exact hpe
    · rw [List.mem_filter, decide_eq_true_eq] at hq
      exact hpe.trans ((h q hq.1).2 hq.2)

theorem storageFor_timeOrdered {s : Store} (hs : OrderedStore s) (sourceId : String) :
    TimeOrdered (storageFor s sourceId).tree := by
  rw [storageFor]
  cases hlookup : s.storageIndex.lookup sourceId with
  | none => exact List.Pairwise.nil
  | some storage => exact hs sourceId storage hlookup

theorem exec_orderedStore {s s' : Store} {op : Op} (hs : OrderedStore s) (hop : KeepsOrder s op)
    (h : exec s op = .ok s') : OrderedStore s' := by
  cases op with
  | put e sourceId =>
      obtain ⟨counters', storage', hi, rfl⟩ := put_inserted h
      refine SyncMap.forall_insert ?_ fun src storage _ hlookup => hs src storage hlookup
      rw [hi.tree]
      exact timeOrdered_put ((storageFor_timeOrdered hs sourceId).sublist (roomFor_sublist _ _)) hop
  | truncate quantity order =>
      refine truncate_invariant (I := OrderedStore) ?_ (fun _ _ hs _ _ => hs) hs h
      intro s sourceId p s' hs hr src storage hlookup
      rcases hr.lookup hlookup with hl | ⟨rfl, before, hb, he, _⟩
      · exact hs src storage hl
      · have ht := hs src before hb
        rw [TimeOrdered, he] at ht
        exact ht.of_cons

/-- After every run whose Puts keep the order, `Get` returns what is stored in
the range, in both directions. -/
theorem get_complete (maxPerSource prunesPerGC : Int) (ops : List Op) (s : Store)
    (hops : Along exec KeepsOrder (newStore maxPerSource prunesPerGC) ops)
    (hrun : run exec (newStore maxPerSource prunesPerGC) ops = .ok s) (index : String)
    (start stop : Int64) (limit : Int) (hlimit : ((stored s index).length : Int) ≤ limit)
    (descending : Bool) :
    ∃ res, get s index start stop none none limit descending = .ok res ∧
      res.Perm ((stored s index).filter (inRange start stop)) := by
  have hs : OrderedStore s :=
    run_invariant (fun _ _ _ hs hop h => exec_orderedStore hs hop h)
      (fun _ _ h => by cases h) hops hrun
  exact get_of_timeOrdered (storageFor_timeOrdered hs index) start stop hlimit descending

theorem get_complete_two_puts :
    ∃ s, run exec (newStore 10 1) [.put (bare 0) "a", .put (bare 0) "a"] = .ok s ∧
      ∃ res, get s "a" 0 1 none none 2 true = .ok res ∧
        res.Perm ((stored s "a").filter (inRange 0 1)) := by
  refine ⟨_, rfl, get_complete 10 1 [.put (bare 0) "a", .put (bare 0) "a"] _ ⟨?_, ?_⟩ rfl "a" 0 1 2
    (by decide) true⟩
  · intro p hp
    cases hp
  · intro s' hs'
    cases hs'
    exact ⟨by decide, fun _ _ => trivial⟩

/-- Timestamps 1, 0, 0 get the keys 1, 0, 2: the descending `Get` prunes the
right child of the root. With room for three, a fourth Put makes the last of
them the root, and the ascending `Get` prunes its left child. -/
theorem get_incomplete :
    (∃ s, run exec (newStore 10 1) [.put (bare 1) "a", .put (bare 0) "a",
      .put (bare 0) "a"] = .ok s ∧
      get s "a" 0 1 none none 10 true = .ok [bare 0] ∧
      (stored s "a").filter (inRange 0 1) = [bare 0, bare 0]) ∧
    ∃ s, run exec (newStore 3 1)
        [.put (bare 1) "a", .put (bare 0) "a", .put (bare 0) "a", .put (bare 3) "a"] = .ok s ∧
      get s "a" 1 2 none none 10 false = .ok [] ∧ (stored s "a").filter (inRange 1 2) = [bare 1] :=
  ⟨⟨_, rfl, by decide, by decide⟩, ⟨_, rfl, by decide, by decide⟩⟩

end LogCache.GetCompleteness
