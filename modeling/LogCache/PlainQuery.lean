import LogCache.GetSoundness
import LogCache.UnfudgedStore
import Mathlib.Data.List.Sort

namespace LogCache.PlainQuery

open AvlNode AvlTree Envelopes EnvelopeStore StoreTransitions Traversal GetCompleteness GetPages
  GetSoundness
  UnfudgedStore Runs

/-- The first `n` of the envelopes that `validEnvelopeType` lets pass. It is
asked only as long as more are needed. -/
def firstValid (types : Option (List EnvelopeType)) :
    Nat → List Envelope → Except Panic (List Envelope)
  | 0, _ => .ok []
  | _ + 1, [] => .ok []
  | n + 1, e :: es => do
      if ← validEnvelopeType e types then return e :: (← firstValid types n es)
      else firstValid types (n + 1) es

section firstValid

variable {types : Option (List EnvelopeType)} {e : Envelope}

theorem firstValid_zero (types : Option (List EnvelopeType)) (es : List Envelope) :
    firstValid types 0 es = .ok [] := by
  rw [firstValid]

theorem firstValid_nil (types : Option (List EnvelopeType)) (n : Nat) :
    firstValid types n [] = .ok [] := by
  cases n <;> rfl

theorem firstValid_cons_error {p : Panic} (h : validEnvelopeType e types = .error p) (n : Nat)
    (es : List Envelope) :
    firstValid types (n + 1) (e :: es) = .error p := by
  rw [firstValid, h]
  rfl

theorem firstValid_cons_invalid (h : validEnvelopeType e types = .ok false) (n : Nat)
    (es : List Envelope) :
    firstValid types n (e :: es) = firstValid types n es := by
  cases n with
  | zero => rw [firstValid_zero, firstValid_zero]
  | succ n =>
      rw [firstValid, h]
      rfl

theorem firstValid_cons_valid (h : validEnvelopeType e types = .ok true) (n : Nat)
    (es : List Envelope) :
    firstValid types (n + 1) (e :: es) = (firstValid types n es).map (e :: ·) := by
  rw [firstValid, h]
  cases firstValid types n es with
  | error p => rfl
  | ok rest => rfl

theorem validEnvelopeType_of_known (hknown : ¬ Unknown types) (e : Envelope) :
    validEnvelopeType e types = .ok (requested types e) :=
  (validEnvelopeType_eq types e).resolve_right fun h => hknown h.2

theorem firstValid_of_known (hknown : ¬ Unknown types) (n : Nat) (es : List Envelope) :
    firstValid types n es = .ok ((es.filter (requested types)).take n) := by
  induction es generalizing n with
  | nil => rw [firstValid_nil, List.filter_nil, List.take_nil]
  | cons e es ih =>
      have hvalid := validEnvelopeType_of_known hknown e
      cases hreq : requested types e with
      | false =>
          rw [hreq] at hvalid
          rw [firstValid_cons_invalid hvalid,
            List.filter_cons_of_neg (Bool.eq_false_iff.mp hreq), ih]
      | true =>
          rw [hreq] at hvalid
          cases n with
          | zero => rw [firstValid_zero, List.take_zero]
          | succ n =>
              rw [firstValid_cons_valid hvalid, List.filter_cons_of_pos hreq,
                List.take_succ_cons, ih]
              rfl

end firstValid

/-- The stored envelopes of the range, sorted by their timestamps, as the name
filter lets them through. -/
def plainQuery (s : Store) (index : String) (start stop : Int64)
    (nameFilter : Option (String → Bool)) :
    List Envelope :=
  (((stored s index).filter (inRange start stop)).insertionSort fun e e' => e.timestamp ≤
    e'.timestamp).filterMap
    fun e => filterByName e nameFilter

section members

theorem isMember_of_unfudged {n : Node Int64 Envelope} (h : ∀ p ∈ n.toList, p.1 = p.2.timestamp)
    (side : Side) :
    isNodeAFudgeSequenceMember n side = false := by
  cases n with
  | nil => rfl
  | node l k e r b =>
      have hroot : e.timestamp = k := (h (k, e) (by simp [Node.toList])).symm
      rw [isNodeAFudgeSequenceMember, if_neg (not_not.mpr hroot)]
      cases hchild : Node.child side (.node l k e r b) with
      | nil => rfl
      | node l' k' e' r' b' =>
          have hmem : (k', e') ∈ (Node.child side (.node l k e r b)).toList := by
            simp [hchild, Node.toList]
          simpa using (h _ (Node.mem_of_mem_child hmem)).symm

theorem member_of_unfudged {n : Node Int64 Envelope} (h : ∀ p ∈ n.toList, p.1 = p.2.timestamp)
    {near : Side} {v : Visit} (hv : v ∈ visits near n) : v.member = false := by
  induction n using Node.side_induction near with
  | nil => cases hv
  | node l k e r b ihnear ihfar =>
      rw [visits_node] at hv
      rcases List.mem_append.mp hv with hv | hv
      · exact ihnear (fun p hp => h p (Node.mem_of_mem_child hp)) hv
      · rcases List.mem_cons.mp hv with rfl | hv
        · exact isMember_of_unfudged h _
        · exact ihfar (fun p hp => h p (Node.mem_of_mem_child hp)) hv

end members

def candidates (q : Query) (vs : List Visit) : List Envelope :=
  (vs.filter fun v => !q.past v.envelope.timestamp).filterMap fun v =>
    filterByName v.envelope q.nameFilter

section candidates

variable (q : Query) {v : Visit} {vs : List Visit}

theorem candidates_of_past (hpast : ∀ w ∈ vs, q.past w.envelope.timestamp = true) :
    candidates q vs = [] := by
  have hnil : vs.filter (fun v => !q.past v.envelope.timestamp) = [] := by
    apply List.filter_eq_nil_iff.mpr
    intro w hw
    simp [hpast w hw]
  rw [candidates, hnil, List.filterMap_nil]

theorem candidates_cons (hpast : q.past v.envelope.timestamp = false) :
    candidates q (v :: vs) = (filterByName v.envelope q.nameFilter).toList ++ candidates q vs := by
  rw [candidates, List.filter_cons_of_pos (by simp [hpast]), List.filterMap_cons]
  cases filterByName v.envelope q.nameFilter <;> rfl

theorem anyM_cons_taken {e : Envelope} {limit : Nat} {res : List Envelope}
    (hmember : v.member = false) (hpast : q.past v.envelope.timestamp = false)
    (hname : filterByName v.envelope q.nameFilter = some e)
    (hvalid : validEnvelopeType e q.types = .ok true) :
    (v :: vs).anyM (visitStep q.past (collect q.types q.nameFilter limit)) res =
      if limit ≤ (res ++ [e]).length then .ok (true, res ++ [e])
      else vs.anyM (visitStep q.past (collect q.types q.nameFilter limit)) (res ++ [e]) := by
  have hstep : visitStep q.past (collect q.types q.nameFilter limit) v res =
      .ok (decide (limit ≤ (res ++ [e]).length), res ++ [e]) := by
    rw [q.visitStep_valid limit res hpast hname, hvalid, hmember]
    exact congrArg (fun b => Except.ok (b, res ++ [e]))
      ((Bool.and_true _).trans (decide_eq_decide.mpr Int.ofNat_le))
  rw [anyM_cons_of_ok hstep]
  simp only [decide_eq_true_eq]

theorem anyM_of_no_member (limit : Nat) (hmember : ∀ v ∈ vs, v.member = false)
    (hpast : vs.Pairwise fun v w => q.past v.envelope.timestamp → q.past w.envelope.timestamp)
    {res : List Envelope} (hres : res.length < limit) :
    (vs.anyM (visitStep q.past (collect q.types q.nameFilter limit)) res).map Prod.snd =
      (firstValid q.types (limit - res.length) (candidates q vs)).map (res ++ ·) := by
  induction vs generalizing res with
  | nil =>
      rw [candidates, List.filter_nil, List.filterMap_nil, firstValid_nil]
      exact congrArg Except.ok (List.append_nil res).symm
  | cons v vs ih =>
      have hv : v.member = false := hmember v List.mem_cons_self
      obtain ⟨hlater, hvs⟩ := List.pairwise_cons.mp hpast
      have hrest := @ih (fun w hw => hmember w (List.mem_cons_of_mem _ hw)) hvs
      cases hp : q.past v.envelope.timestamp with
      | true =>
          have hall : ∀ w ∈ v :: vs, q.past w.envelope.timestamp = true :=
            List.forall_mem_cons.mpr ⟨hp, fun w hw => hlater w hw hp⟩
          rw [anyM_cons_of_ok (q.visitStep_past limit res hp), hv, candidates_of_past q hall,
            firstValid_nil]
          exact congrArg Except.ok (List.append_nil res).symm
      | false =>
          obtain ⟨n, hn⟩ : ∃ n, limit - res.length = n + 1 := ⟨limit - res.length - 1, by omega⟩
          rw [candidates_cons q hp]
          cases hname : filterByName v.envelope q.nameFilter with
          | none =>
              rw [anyM_cons_of_ok (q.visitStep_rejected limit res hp hname)]
              exact hrest hres
          | some e =>
              have hstep := q.visitStep_valid limit res hp hname
              rw [Option.toList_some, List.singleton_append]
              cases hvalid : validEnvelopeType e q.types with
              | error p =>
                  rw [hvalid] at hstep
                  rw [anyM_cons_of_error hstep, hn, firstValid_cons_error hvalid]
                  rfl
              | ok valid =>
                  cases valid with
                  | false =>
                      rw [hvalid] at hstep
                      rw [anyM_cons_of_ok hstep, firstValid_cons_invalid hvalid]
                      simpa [Nat.not_le.mpr hres] using hrest hres
                  | true =>
                      have hlength : (res ++ [e]).length = res.length + 1 := List.length_append
                      rw [anyM_cons_taken q hv hp hname hvalid, hn, firstValid_cons_valid hvalid]
                      split_ifs with hfull
                      · have hzero : n = 0 := by omega
                        rw [hzero, firstValid_zero]
                        rfl
                      · have hleft : limit - (res ++ [e]).length = n := by omega
                        rw [hrest (by omega), hleft]
                        cases firstValid q.types n (candidates q vs) with
                        | error p => rfl
                        | ok rest => exact congrArg Except.ok (List.append_assoc res [e] rest)

end candidates

theorem candidates_nodes (q : Query) {tree : Tree Int64 Envelope} (ht : TimeOrdered tree) :
    candidates q (q.nodes tree) =
      (((if q.descending then tree.entries.reverse else tree.entries).map Prod.snd).filter
        (inRange q.start q.stop)).filterMap fun e => filterByName e q.nameFilter := by
  have hfilter : ∀ vs : List Visit,
      ((vs.filter fun v => !skips q.descending q.start q.stop v.envelope.timestamp).filter fun v =>
        !q.past v.envelope.timestamp).map Visit.envelope =
          (vs.map Visit.envelope).filter (inRange q.start q.stop) := by
    intro vs
    rw [List.filter_filter, List.filter_map]
    congr 2
    funext v
    rw [Function.comp_apply, ← wanted_of_not_skipped q.descending, Bool.and_comm]
    rfl
  have hmap : ((if q.descending then tree.entries.reverse else tree.entries).map Prod.snd) =
      (visits (firstSide q.descending) tree.root).map Visit.envelope := by
    rw [← map_entry_visits, List.map_map]
    rfl
  rw [hmap, ← hfilter, List.filterMap_map, candidates, Query.nodes, reached_of_timeOrdered ht]
  rfl

theorem candidates_plainQuery (q : Query) {s : Store} {index : String}
    (ht : Unfudged (storageFor s index).tree) :
    candidates q (q.nodes (storageFor s index).tree) =
      if q.descending then (plainQuery s index q.start q.stop q.nameFilter).reverse
      else plainQuery s index q.start q.stop q.nameFilter := by
  have hordered := ht.timeOrdered
  have hsorted : ((stored s index).filter (inRange q.start q.stop)).Pairwise
      fun e e' => e.timestamp ≤ e'.timestamp := by
    apply List.Pairwise.filter
    exact List.pairwise_map.mpr (hordered.imp fun h => h.le)
  rw [candidates_nodes q (hordered.imp fun h => h.le), plainQuery, hsorted.insertionSort_eq]
  cases q.descending with
  | false => rfl
  | true =>
      simp only [if_true, List.map_reverse, List.filter_reverse, List.filterMap_reverse, stored]

theorem get_of_unfudged {s : Store} {index : String}
    (ht : Unfudged (storageFor s index).tree) (q : Query) {limit : Nat} (hlimit : 1 ≤ limit) :
    get s index q.start q.stop q.types q.nameFilter limit q.descending =
      firstValid q.types limit (if q.descending
        then (plainQuery s index q.start q.stop q.nameFilter).reverse
        else plainQuery s index q.start q.stop q.nameFilter) := by
  have hsub := reached_sublist (firstSide q.descending) (skips q.descending q.start q.stop)
      (storageFor s index).tree.root
  have hmember : ∀ v ∈ q.nodes (storageFor s index).tree, v.member = false :=
    fun v hv => member_of_unfudged ht (hsub.subset hv)
  have hpast := (passes_pairwise (ht.timeOrdered.imp fun h => h.le) q.descending q.start
      q.stop).sublist hsub
  have hnone : ([] : List Envelope).length < limit := hlimit
  rw [get_eq, anyM_of_no_member q limit hmember hpast hnone, candidates_plainQuery q ht]
  simp only [List.length_nil, Nat.sub_zero, List.nil_append]
  cases firstValid q.types limit _ <;> rfl

/-- For distinct timestamps, the pruned traversal with its early stop is the
plain query. Without unknown types it returns, and the type check is a
filter. -/
theorem get_eq_plainQuery (maxPerSource prunesPerGC : Int) (ops : List Op) (s : Store)
    (hrun : run exec (newStore maxPerSource prunesPerGC) ops = .ok s) (index : String)
    (hdistinct : ((arrivals index ops).map Envelope.timestamp).Nodup) (start stop : Int64)
    (types : Option (List EnvelopeType)) (nameFilter : Option (String → Bool)) (limit : Nat)
    (hlimit : 1 ≤ limit) :
    let plain := plainQuery s index start stop nameFilter
    get s index start stop types nameFilter limit false = firstValid types limit plain ∧
      get s index start stop types nameFilter limit true = firstValid types limit plain.reverse ∧
      (¬ Unknown types → (∀ e, validEnvelopeType e types = .ok (requested types e)) ∧
        get s index start stop types nameFilter limit false =
          .ok ((plain.filter (requested types)).take limit) ∧
        get s index start stop types nameFilter limit true =
          .ok ((plain.filter (requested types)).reverse.take limit)) := by
  have ht := (faithful_of_distinct hdistinct hrun).unfudged
  have hasc := get_of_unfudged ht ⟨start, stop, types, nameFilter, false⟩ hlimit
  have hdesc := get_of_unfudged ht ⟨start, stop, types, nameFilter, true⟩ hlimit
  refine ⟨hasc, hdesc, fun hknown => ⟨validEnvelopeType_of_known hknown, ?_, ?_⟩⟩
  · exact hasc.trans (firstValid_of_known hknown _ _)
  · rw [← List.filter_reverse]
    exact hdesc.trans (firstValid_of_known hknown _ _)

theorem get_eq_plainQuery_late :
    ∃ s, run exec (newStore 10 1) [.put (bare 3) "a", .put (bare 1) "a",
      .put (bare 2) "a"] = .ok s ∧
      get s "a" 1 4 none none 2 true = .ok [bare 3, bare 2] := by
  refine ⟨_, rfl, ?_⟩
  have h := (get_eq_plainQuery 10 1 [.put (bare 3) "a", .put (bare 1) "a", .put (bare 2) "a"] _ rfl
      "a" (by decide)
    1 4 none none 2 (by decide)).2.1
  exact h.trans (by decide +kernel)

end LogCache.PlainQuery
