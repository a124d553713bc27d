import LogCache.GetPages
import LogCache.ReadPath

namespace LogCache.ReadTypes

open Runs Envelopes EnvelopeStore StoreTransitions Traversal GetPages ReadPath

section types

def known : EnvelopeType → Bool
  | .unrecognized _ => false
  | _ => true

/-- The check of an envelope ends before it meets a number that is none: there
is no such number, or a type before the first one is the envelope's. -/
def answers (types : Option (List EnvelopeType)) (e : Envelope) : Bool :=
  types.all fun types => types.all known || (types.takeWhile known).any (hasType e)

theorem checkEnvelopeType_of_known {t : EnvelopeType} (h : known t = true) (e : Envelope) :
    checkEnvelopeType e t = .ok (hasType e t) := by
  cases t with
  | unrecognized number => exact absurd h Bool.false_ne_true
  | _ => rfl

theorem checkEnvelopeType_of_not_known {t : EnvelopeType} (h : known t = false) (e : Envelope) :
    checkEnvelopeType e t = .error .unknownType := by
  cases t with
  | unrecognized number => rfl
  | _ => exact absurd h.symm Bool.false_ne_true

theorem anyEnvelopeType_error_iff (e : Envelope) (types : List EnvelopeType) :
    anyEnvelopeType e types = .error .unknownType ↔ answers (some types) e = false := by
  induction types with
  | nil => simp [anyEnvelopeType, answers]
  | cons t types ih =>
      rw [anyEnvelopeType]
      cases ht : known t with
      | false => simp [checkEnvelopeType_of_not_known ht, answers, ht, bind, Except.bind]
      | true =>
          rw [checkEnvelopeType_of_known ht]
          cases he : hasType e t with
          | true => simp [answers, ht, he, bind, Except.bind, pure, Except.pure]
          | false => simpa [answers, ht, he, bind, Except.bind] using ih

theorem validEnvelopeType_error_iff (types : Option (List EnvelopeType)) (e : Envelope) :
    validEnvelopeType e types = .error .unknownType ↔ answers types e = false := by
  cases types with
  | none => simp [validEnvelopeType, answers]
  | some types => exact anyEnvelopeType_error_iff e types

theorem not_unknown_of_known {types : List EnvelopeType} (h : ∀ t ∈ types, known t = true) :
    ¬ Unknown (some types) := by
  rintro ⟨number, hnumber⟩
  exact absurd (h _ hnumber) Bool.false_ne_true

end types

section examined

variable (q : Query)

def offered (v : Visit) : Option Envelope :=
  if q.past v.envelope.timestamp then none else filterByName v.envelope q.nameFilter

theorem shown_eq (v : Visit) : q.shown v = (offered q v).filter (requested q.types) := by
  rw [Query.shown, offered]
  split_ifs <;> rfl

theorem mem_shown {v : Visit} {e : Envelope} :
    e ∈ q.shown v ↔ e ∈ offered q v ∧ requested q.types e = true := by
  rw [shown_eq, Option.mem_def, Option.filter_eq_some_iff, Option.mem_def]

theorem shown_narrowed {types : Option (List EnvelopeType)}
    (hnarrow : ∀ e, requested types e = true → requested q.types e = true) {v : Visit}
    (hsame : ∀ e ∈ q.shown v, requested types e = true) :
    ({ q with types := types } : Query).shown v = q.shown v := by
  ext e
  rw [← Option.mem_def, ← Option.mem_def, mem_shown, mem_shown]
  exact and_congr_right fun hoffered => ⟨hnarrow e,
    fun h => hsame e ((mem_shown q).mpr ⟨hoffered, h⟩)⟩

variable (limit : Int)

def stops (res : List Envelope) (v : Visit) : Bool :=
  q.leaves v || (q.halts v && decide (limit ≤ (res ++ (q.shown v).toList).length))

def examined : List Envelope → List Visit → List Visit
  | _, [] => []
  | res, v :: vs => v :: if stops q limit res v then [] else examined (res ++ (q.shown v).toList) vs

theorem page_cons (res : List Envelope) (v : Visit) (vs : List Visit) :
    q.page limit res (v :: vs) =
      if stops q limit res v then res ++ (q.shown v).toList
      else q.page limit (res ++ (q.shown v).toList) vs := rfl

theorem visitStep_error_iff (res : List Envelope) (v : Visit) :
    visitStep q.past (collect q.types q.nameFilter limit) v res = .error .unknownType ↔
      ∃ e ∈ offered q v, answers q.types e = false := by
  rw [offered]
  cases hpast : q.past v.envelope.timestamp with
  | true => simp [q.visitStep_past limit res hpast]
  | false =>
      cases hname : filterByName v.envelope q.nameFilter with
      | none => simp [q.visitStep_rejected limit res hpast hname]
      | some e =>
          rw [q.visitStep_valid limit res hpast hname]
          simp only [Bool.false_eq_true, if_false, Option.mem_some, exists_eq_left',
            ← validEnvelopeType_error_iff]
          cases validEnvelopeType e q.types with
          | error p => simp [bind, Except.bind]
          | ok valid => simp [bind, Except.bind]

theorem anyM_error_iff (res : List Envelope) (vs : List Visit) :
    vs.anyM (visitStep q.past (collect q.types q.nameFilter limit)) res = .error .unknownType ↔
      ∃ v ∈ examined q limit res vs, ∃ e ∈ offered q v, answers q.types e = false := by
  induction vs generalizing res with
  | nil =>
      rw [anyM_nil]
      simp [examined]
  | cons v vs ih =>
      rw [examined, List.exists_mem_cons_iff, ← visitStep_error_iff q limit res v]
      rcases q.visitStep_page limit res v with hstep | ⟨hstep, _⟩
      · rw [anyM_cons_of_ok hstep, hstep, ← stops]
        cases stops q limit res v with
        | true => simp
        | false => simp [ih]
      · rw [anyM_cons_of_error hstep]
        exact iff_of_true rfl (Or.inl hstep)

theorem get_error_iff (s : Store) (index : String) :
    get s index q.start q.stop q.types q.nameFilter limit q.descending = .error .unknownType ↔
      ∃ v ∈ examined q limit [] (q.nodes (storageFor s index).tree), ∃ e ∈ offered q v,
        answers q.types e = false := by
  rw [get_eq, ← anyM_error_iff]
  cases (q.nodes (storageFor s index).tree).anyM
    (visitStep q.past (collect q.types q.nameFilter limit)) [] with
  | error p => simp [Except.map]
  | ok r => simp [Except.map]

theorem exists_page_eq (res : List Envelope) (vs : List Visit) :
    ∃ rest, q.page limit res vs = res ++ rest ∧ ∀ e ∈ rest, requested q.types e = true := by
  have hshown : ∀ v, ∀ e ∈ (q.shown v).toList, requested q.types e = true := by
    intro v e he
    exact ((mem_shown q).mp (Option.mem_toList.mp he)).2
  induction vs generalizing res with
  | nil => exact ⟨[], (List.append_nil res).symm, by simp⟩
  | cons v vs ih =>
      rw [page_cons]
      split_ifs
      · exact ⟨_, rfl, hshown v⟩
      · obtain ⟨rest, hrest, hall⟩ := ih (res ++ (q.shown v).toList)
        refine ⟨(q.shown v).toList ++ rest, by rw [hrest, List.append_assoc], ?_⟩
        intro e he
        exact (List.mem_append.mp he).elim (hshown v e) (hall e)

/-- Fewer types give the same page exactly when every envelope at which the
traversal looks, and that it takes, is of one of the fewer. -/
theorem page_narrowed_iff {types : Option (List EnvelopeType)}
    (hnarrow : ∀ e, requested types e = true → requested q.types e = true) (res : List Envelope)
    (vs : List Visit) :
    ({ q with types := types } : Query).page limit res vs = q.page limit res vs ↔
      ∀ v ∈ examined q limit res vs, ∀ e ∈ q.shown v, requested types e = true := by
  induction vs generalizing res with
  | nil => simp [Query.page, examined]
  | cons v vs ih =>
      rw [page_cons, page_cons, examined, List.forall_mem_cons]
      by_cases hsame : ∀ e ∈ q.shown v, requested types e = true
      · have hshown := shown_narrowed q hnarrow hsame
        have hstops : stops { q with types := types } limit res v = stops q limit res v := by
          rw [stops, hshown]
          rfl
        rw [hshown, hstops]
        cases stops q limit res v with
        | true => simpa using hsame
        | false =>
            rw [if_neg Bool.false_ne_true, if_neg Bool.false_ne_true, if_neg Bool.false_ne_true, ih,
              and_iff_right hsame]
      · -- The page with more types goes on with `e`, the one with fewer with something of a
        -- type in `types`.
        refine iff_of_false ?_ fun h => hsame h.1
        push Not at hsame
        obtain ⟨e, he, hnot⟩ := hsame
        have hfull : ∃ rest, (if stops q limit res v then res ++ (q.shown v).toList
            else q.page limit (res ++ (q.shown v).toList) vs) = res ++ e :: rest := by
          rw [Option.mem_def.mp he]
          obtain ⟨rest, hrest, _⟩ := exists_page_eq q limit (res ++ [e]) vs
          split_ifs
          · exact ⟨[], rfl⟩
          · exact ⟨rest, by rw [Option.toList_some, hrest, List.append_assoc,
              List.singleton_append]⟩
        obtain ⟨rest, hrest⟩ := hfull
        obtain ⟨rest', hrest', hall⟩ := exists_page_eq { q with types := types } limit res (v :: vs)
        rw [page_cons] at hrest'
        rw [hrest, hrest', List.append_cancel_left_eq]
        rintro rfl
        exact hnot (hall e List.mem_cons_self)

end examined

section requests

def endTimeFor (now : Int64) (req : ReadRequest) : Int64 :=
  if req.endTime = 0 then now else req.endTime

def limitFor (req : ReadRequest) : Int := (if req.limit = 0 then 100 else req.limit).toInt

def Accepted (compile : Compile) (req : ReadRequest) (nameFilter : Option (String → Bool)) : Prop :=
  ¬ (req.endTime ≠ 0 ∧ req.endTime < req.startTime) ∧ ¬ 1000 < req.limit ∧ ¬ req.limit < 0 ∧
    compileNameFilter compile req.nameFilter = .ok nameFilter

def ownTypes : List EnvelopeType → Option (List EnvelopeType)
  | [] => none
  | types => some types

def queryFor (now : Int64) (req : ReadRequest) (nameFilter : Option (String → Bool))
    (types : Option (List EnvelopeType)) : Query :=
  ⟨req.startTime, endTimeFor now req, types, nameFilter, req.descending⟩

def lookedAt (now : Int64) (s : Store) (req : ReadRequest) (nameFilter : Option (String → Bool))
    (types : Option (List EnvelopeType)) : List Visit :=
  examined (queryFor now req nameFilter types) (limitFor req) []
    ((queryFor now req nameFilter types).nodes (storageFor s req.sourceId).tree)

theorem storeTypes_eq (types : List EnvelopeType) :
    storeTypes types = ownTypes (types.filter (· ≠ .any)) := by
  rw [storeTypes]
  cases types.filter (· ≠ .any) <;> rfl

theorem requested_ownTypes (types : List EnvelopeType) (e : Envelope) :
    requested (ownTypes types) e = true ↔ types = [] ∨ ∃ t ∈ types, hasType e t = true := by
  cases types with
  | nil => simp [ownTypes, requested]
  | cons t types => simp [ownTypes, requested]

theorem requested_of_storeTypes {types : List EnvelopeType} {e : Envelope}
    (h : requested (storeTypes types) e = true) : requested (ownTypes types) e = true := by
  rw [storeTypes_eq, requested_ownTypes] at h
  rw [requested_ownTypes]
  rcases h with hnil | ⟨t, ht, he⟩
  · cases types with
    | nil => exact Or.inl rfl
    | cons t types =>
        have hany : t = .any := by simpa using List.filter_eq_nil_iff.mp hnil t List.mem_cons_self
        exact Or.inr ⟨t, List.mem_cons_self, by rw [hany]; rfl⟩
  · exact Or.inr ⟨t, (List.mem_filter.mp ht).1, he⟩

variable {compile : Compile} {req : ReadRequest} {nameFilter : Option (String → Bool)}

theorem read_of_accepted (h : Accepted compile req nameFilter) (now : Int64) (s : Store) :
    read compile now s req = .ok <$> get s req.sourceId req.startTime (endTimeFor now req)
      (storeTypes req.envelopeTypes) nameFilter (limitFor req) req.descending := by
  obtain ⟨horder, hmax, hmin, hfilter⟩ := h
  rw [ReadPath.read, if_neg horder, if_neg hmax, if_neg hmin, hfilter]
  rfl

theorem read_of_not_accepted (h : ∀ nameFilter, ¬ Accepted compile req nameFilter) (now : Int64)
    (s : Store) :
    ∃ message, read compile now s req = .ok (.error message) := by
  rw [ReadPath.read]
  by_cases horder : req.endTime ≠ 0 ∧ req.endTime < req.startTime
  · exact ⟨_, if_pos horder⟩
  by_cases hmax : 1000 < req.limit
  · rw [if_neg horder, if_pos hmax]
    exact ⟨_, rfl⟩
  by_cases hmin : req.limit < 0
  · rw [if_neg horder, if_neg hmax, if_pos hmin]
    exact ⟨_, rfl⟩
  rw [if_neg horder, if_neg hmax, if_neg hmin]
  cases hfilter : compileNameFilter compile req.nameFilter with
  | error message => exact ⟨message, rfl⟩
  | ok nameFilter => exact absurd ⟨horder, hmax, hmin, hfilter⟩ (h nameFilter)

/-- A read answers exactly when, for each node at which the store looks, the
types before the first unrecognized number decide about its envelope. -/
theorem read_answers_iff (compile : Compile) (now : Int64) (s : Store) (req : ReadRequest) :
    (∃ answer, read compile now s req = .ok answer) ↔
      ∀ nameFilter, Accepted compile req nameFilter →
        ∀ v ∈ lookedAt now s req nameFilter (storeTypes req.envelopeTypes),
          ∀ e ∈ offered (queryFor now req nameFilter (storeTypes req.envelopeTypes)) v,
            answers (storeTypes req.envelopeTypes) e = true := by
  by_cases haccepted : ∃ nameFilter, Accepted compile req nameFilter
  · obtain ⟨nameFilter, h⟩ := haccepted
    have hunique : ∀ nameFilter', Accepted compile req nameFilter' → nameFilter' = nameFilter :=
      fun nameFilter' h' => Except.ok.inj (h'.2.2.2.symm.trans h.2.2.2)
    have hget := get_error_iff (queryFor now req nameFilter (storeTypes req.envelopeTypes))
        (limitFor req) s
      req.sourceId
    rw [read_of_accepted h]
    constructor
    · rintro ⟨answer, hanswer⟩ nameFilter' h' v hv e he
      obtain rfl := hunique nameFilter' h'
      by_contra hnot
      have herror := hget.mpr ⟨v, hv, e, he, Bool.not_eq_true _ ▸ hnot⟩
      rw [show get s req.sourceId req.startTime (endTimeFor now req)
        (storeTypes req.envelopeTypes) nameFilter'
        (limitFor req) req.descending = .error .unknownType from herror] at hanswer
      cases hanswer
    · intro hall
      rcases get_page (queryFor now req nameFilter (storeTypes req.envelopeTypes)) s req.sourceId
        (limitFor req) with
        hpage | ⟨herror, _⟩
      · exact ⟨_, congrArg (Except.ok <$> ·) hpage⟩
      · obtain ⟨v, hv, e, he, hnot⟩ := hget.mp herror
        exact absurd (hnot.symm.trans (hall nameFilter h v hv e he)) Bool.false_ne_true
  · push Not at haccepted
    obtain ⟨message, hmessage⟩ := read_of_not_accepted haccepted now s
    exact iff_of_true ⟨_, hmessage⟩ fun nameFilter h => absurd h (haccepted nameFilter)

/-- The list is one number without a type, and the store has one envelope. -/
theorem read_panics :
    ∃ s, run exec (newStore 10 1) [.put (bare 1) "a"] = .ok s ∧
      read (fun _ => .error "") 5 s ⟨"a", 0, 0, 0, [.unrecognized 6], false, ""⟩ =
        .error .unknownType :=
  ⟨_, rfl, rfl⟩

theorem get_of_known {types : List EnvelopeType} (hknown : ∀ t ∈ types, known t = true)
    (now : Int64) (s : Store) (req : ReadRequest) (nameFilter : Option (String → Bool)) :
    get s req.sourceId req.startTime (endTimeFor now req) (ownTypes types) nameFilter
      (limitFor req) req.descending =
      .ok ((queryFor now req nameFilter (ownTypes types)).page (limitFor req) []
        ((queryFor now req nameFilter (ownTypes types)).nodes
          (storageFor s req.sourceId).tree)) := by
  rcases get_page (queryFor now req nameFilter (ownTypes types)) s req.sourceId
    (limitFor req) with h | ⟨_, h⟩
  · exact h
  · cases types with
    | nil =>
        obtain ⟨number, hnumber⟩ := h
        exact absurd hnumber List.not_mem_nil
    | cons t types => exact absurd h (not_unknown_of_known hknown)

theorem mem_shown_of_any {types : List EnvelopeType} (hany : EnvelopeType.any ∈ types) (now : Int64)
    (req : ReadRequest) (nameFilter : Option (String → Bool)) (v : Visit) (e : Envelope) :
    e ∈ (queryFor now req nameFilter (ownTypes types)).shown v ↔
      e ∈ offered (queryFor now req nameFilter (ownTypes types)) v := by
  rw [mem_shown]
  exact and_iff_left ((requested_ownTypes types e).mpr (Or.inr ⟨.any, hany, rfl⟩))

/-- `Read` returns what `Get` returns for the list of the request exactly when
the list has no `ANY`, or nothing but `ANY`, or every envelope in the range and
of the name at which that `Get` looks is of a type in the list other than
`ANY`. -/
theorem read_own_types_iff (compile : Compile) (now : Int64) (s : Store) (req : ReadRequest)
    (nameFilter : Option (String → Bool)) (haccepted : Accepted compile req nameFilter)
    (hknown : ∀ t ∈ req.envelopeTypes, known t = true) :
    read compile now s req = .ok <$> get s req.sourceId req.startTime (endTimeFor now req)
        (ownTypes req.envelopeTypes) nameFilter (limitFor req) req.descending ↔
      .any ∉ req.envelopeTypes ∨ (∀ t ∈ req.envelopeTypes, t = .any) ∨
        ∀ v ∈ lookedAt now s req nameFilter (ownTypes req.envelopeTypes),
          ∀ e ∈ offered (queryFor now req nameFilter (ownTypes req.envelopeTypes)) v,
            ∃ t ∈ req.envelopeTypes, t ≠ .any ∧ hasType e t = true := by
  have hfilter : ∀ t ∈ req.envelopeTypes.filter (· ≠ .any), known t = true :=
    fun t ht => hknown t (List.mem_filter.mp ht).1
  have hnarrow := page_narrowed_iff (queryFor now req nameFilter (ownTypes req.envelopeTypes))
      (limitFor req)
    (fun _ h => requested_of_storeTypes h) []
    ((queryFor now req nameFilter (ownTypes req.envelopeTypes)).nodes
      (storageFor s req.sourceId).tree)
  rw [storeTypes_eq] at hnarrow
  rw [read_of_accepted haccepted, storeTypes_eq, get_of_known hfilter, get_of_known hknown]
  change Except.ok (Except.ok _) = Except.ok (Except.ok _) ↔ _
  rw [Except.ok.injEq, Except.ok.injEq]
  refine hnarrow.trans ?_
  by_cases hany : EnvelopeType.any ∈ req.envelopeTypes
  · -- With `ANY` in the list, `Get` takes everything that it is offered.
    simp only [mem_shown_of_any hany, requested_ownTypes, List.mem_filter, List.filter_eq_nil_iff,
      decide_eq_true_eq, not_not]
    constructor
    · intro h
      by_cases hall : ∀ t ∈ req.envelopeTypes, t = .any
      · exact Or.inr (Or.inl hall)
      · refine Or.inr (Or.inr fun v hv e he => ?_)
        obtain ⟨t, ⟨ht, hne⟩, htype⟩ := (h v hv e he).resolve_left hall
        exact ⟨t, ht, hne, htype⟩
    · rintro (hnone | hall | hof) v hv e he
      · exact absurd hany hnone
      · exact Or.inl hall
      · obtain ⟨t, ht, hne, htype⟩ := hof v hv e he
        exact Or.inr ⟨t, ⟨ht, hne⟩, htype⟩
  · have hself : req.envelopeTypes.filter (· ≠ .any) = req.envelopeTypes := by
      apply List.filter_eq_self.mpr
      intro t ht
      exact decide_eq_true fun h => hany (h ▸ ht)
    rw [hself]
    exact iff_of_true (fun v _ e he => ((mem_shown _).mp he).2) (Or.inl hany)

theorem read_own_types_any :
    ∃ s, run exec (newStore 10 1) [.put (bare 1) "a"] = .ok s ∧
      read (fun _ => .error "") 5 s ⟨"a", 0, 0, 0, [.any, .any], false, ""⟩ =
        .ok <$> get s "a" 0 5 (some [.any, .any]) none 100 false :=
  ⟨_, rfl, (read_own_types_iff (fun _ => .error "") 5 _ ⟨"a", 0, 0, 0, [.any, .any], false, ""⟩ none
    ⟨by decide, by decide, by decide, rfl⟩ (by decide)).mpr (Or.inr (Or.inl (by decide)))⟩

/-- Given `LOG` and `ANY`, the store returns an envelope that is not a log, and
`Read` does not. -/
theorem read_own_types_differs :
    ∃ s, run exec (newStore 10 1) [.put (bare 1) "a"] = .ok s ∧
      read (fun _ => .error "") 5 s ⟨"a", 0, 0, 0, [.log, .any], false, ""⟩ = .ok (.ok []) ∧
      get s "a" 0 5 (some [.log, .any]) none 100 false = .ok [bare 1] :=
  ⟨_, rfl, rfl, rfl⟩

end requests

end LogCache.ReadTypes
