import LogCache.GetCompleteness

namespace LogCache.GetPages

open AvlNode AvlTree Envelopes EnvelopeStore StoreTransitions Traversal GetCompleteness

structure Query where
  start : Int64
  stop : Int64
  types : Option (List EnvelopeType)
  nameFilter : Option (String → Bool)
  descending : Bool

section types

def requested (types : Option (List EnvelopeType)) (e : Envelope) : Bool :=
  types.elim true fun types => types.any (hasType e)

def Unknown (types : Option (List EnvelopeType)) : Prop :=
  ∃ number, EnvelopeType.unrecognized number ∈ types.getD []

theorem anyEnvelopeType_eq (e : Envelope) (types : List EnvelopeType) :
    anyEnvelopeType e types = .ok (types.any (hasType e)) ∨
      anyEnvelopeType e types = .error .unknownType ∧ Unknown (some types) := by
  induction types with
  | nil => exact Or.inl rfl
  | cons t types ih =>
      have hrest : Unknown (some types) → Unknown (some (t :: types)) :=
        fun ⟨number, h⟩ => ⟨number, List.mem_cons_of_mem t h⟩
      have hnamed : checkEnvelopeType e t = .ok (hasType e t) →
          anyEnvelopeType e (t :: types) = .ok ((t :: types).any (hasType e)) ∨
            anyEnvelopeType e (t :: types) = .error .unknownType ∧ Unknown (some (t :: types)) := by
        intro hcheck
        rw [anyEnvelopeType, hcheck, List.any_cons]
        cases hasType e t with
        | true => exact Or.inl rfl
        | false => exact ih.imp_right fun h => ⟨h.1, hrest h.2⟩
      cases t with
      | unrecognized number => exact Or.inr ⟨rfl, number, List.mem_cons_self⟩
      | _ => exact hnamed rfl

theorem validEnvelopeType_eq (types : Option (List EnvelopeType)) (e : Envelope) :
    validEnvelopeType e types = .ok (requested types e) ∨
      validEnvelopeType e types = .error .unknownType ∧ Unknown types := by
  cases types with
  | none => exact Or.inl rfl
  | some types => exact anyEnvelopeType_eq e types

end types

namespace Query

variable (q : Query)

def past (t : Int64) : Bool := passes q.descending q.start q.stop t

def nodes (tree : Tree Int64 Envelope) : List Visit :=
  reached (firstSide q.descending) (skips q.descending q.start q.stop) tree.root

def shown (v : Visit) : Option Envelope :=
  if q.past v.envelope.timestamp then none
  else (filterByName v.envelope q.nameFilter).filter (requested q.types)

def leaves (v : Visit) : Bool := q.past v.envelope.timestamp && !v.member

def halts (v : Visit) : Bool :=
  (q.past v.envelope.timestamp || (filterByName v.envelope q.nameFilter).isSome) && !v.member

def page (limit : Int) : List Envelope → List Visit → List Envelope
  | res, [] => res
  | res, v :: vs =>
      let res := res ++ (q.shown v).toList
      if q.leaves v || (q.halts v && decide (limit ≤ res.length)) then res else page limit res vs

variable (limit : Int) (res : List Envelope)

theorem visitStep_past {v : Visit} (hpast : q.past v.envelope.timestamp = true) :
    visitStep q.past (collect q.types q.nameFilter limit) v res = .ok (!v.member, res) := by
  rw [visitStep_of_past hpast]
  rfl

theorem visitStep_rejected {v : Visit} (hpast : q.past v.envelope.timestamp = false)
    (hname : filterByName v.envelope q.nameFilter = none) :
    visitStep q.past (collect q.types q.nameFilter limit) v res = .ok (false, res) := by
  rw [visitStep_of_not_past hpast]
  change collect q.types q.nameFilter limit v.envelope res >>= _ = _
  simp only [collect, hname]
  rfl

theorem visitStep_valid {v : Visit} {e : Envelope} (hpast : q.past v.envelope.timestamp = false)
    (hname : filterByName v.envelope q.nameFilter = some e) :
    visitStep q.past (collect q.types q.nameFilter limit) v res =
      validEnvelopeType e q.types >>= fun valid =>
      .ok (decide (limit ≤ (if valid then res ++ [e] else res).length) && !v.member,
        if valid then res ++ [e] else res) := by
  rw [visitStep_of_not_past hpast]
  change collect q.types q.nameFilter limit v.envelope res >>= _ = _
  simp only [collect, hname]
  cases validEnvelopeType e q.types with
  | error p => rfl
  | ok valid => rfl

theorem visitStep_page (v : Visit) :
    visitStep q.past (collect q.types q.nameFilter limit) v res =
        .ok (q.leaves v || (q.halts v && decide (limit ≤ (res ++ (q.shown v).toList).length)),
          res ++ (q.shown v).toList) ∨
      visitStep q.past (collect q.types q.nameFilter limit) v res = .error .unknownType ∧
        Unknown q.types := by
  cases hpast : q.past v.envelope.timestamp with
  | true =>
      rw [q.visitStep_past limit res hpast, leaves, halts, shown, hpast]
      refine Or.inl ?_
      cases v.member <;> simp
  | false =>
      cases hname : filterByName v.envelope q.nameFilter with
      | none =>
          rw [q.visitStep_rejected limit res hpast hname, leaves, halts, shown, hpast, hname]
          refine Or.inl ?_
          cases v.member <;> simp
      | some e =>
          rw [q.visitStep_valid limit res hpast hname, leaves, halts, shown, hpast, hname]
          rcases validEnvelopeType_eq q.types e with hvalid | ⟨hvalid, hunknown⟩
          · refine Or.inl ?_
            rw [hvalid, Option.filter_some]
            cases requested q.types e <;> cases v.member <;> simp [bind, Except.bind]
          · exact Or.inr ⟨congrArg (· >>= _) hvalid, hunknown⟩

theorem anyM_page (vs : List Visit) :
    (∃ b, vs.anyM (visitStep q.past (collect q.types q.nameFilter limit)) res =
      .ok (b, q.page limit res vs)) ∨
      vs.anyM (visitStep q.past (collect q.types q.nameFilter limit)) res = .error .unknownType ∧
        Unknown q.types := by
  induction vs generalizing res with
  | nil => exact Or.inl ⟨false, rfl⟩
  | cons v vs ih =>
      rcases q.visitStep_page limit res v with hstep | ⟨hstep, hunknown⟩
      · rw [anyM_cons_of_ok hstep, page]
        split_ifs
        · exact Or.inl ⟨true, rfl⟩
        · exact ih _
      · exact Or.inr ⟨anyM_cons_of_error hstep vs, hunknown⟩

end Query

theorem get_eq (q : Query) (s : Store) (index : String) (limit : Int) :
    get s index q.start q.stop q.types q.nameFilter limit q.descending =
      ((q.nodes (storageFor s index).tree).anyM
        (visitStep q.past (collect q.types q.nameFilter limit)) []).map
        Prod.snd := by
  obtain ⟨start, stop, types, nameFilter, descending⟩ := q
  rw [Traversal.get, storageFor]
  cases s.storageIndex.lookup index with
  | none => cases descending <;> rfl
  | some storage =>
      cases descending with
      | false =>
          simp only [Bool.false_eq_true, if_false]
          rw [treeAscTraverse_eq]
          rfl
      | true =>
          simp only [if_true]
          rw [treeDescTraverse_eq]
          rfl

theorem get_page (q : Query) (s : Store) (index : String) (limit : Int) :
    get s index q.start q.stop q.types q.nameFilter limit q.descending =
        .ok (q.page limit [] (q.nodes (storageFor s index).tree)) ∨
      get s index q.start q.stop q.types q.nameFilter limit q.descending = .error .unknownType ∧
        Unknown q.types := by
  rw [get_eq]
  rcases q.anyM_page limit [] (q.nodes (storageFor s index).tree) with ⟨b, hb⟩ | ⟨hb, hunknown⟩
  · rw [hb]
    exact Or.inl rfl
  · rw [hb]
    exact Or.inr ⟨rfl, hunknown⟩

end LogCache.GetPages
