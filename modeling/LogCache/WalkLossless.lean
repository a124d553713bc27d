import LogCache.GetPages
import LogCache.Paging
import LogCache.ReadPath
import LogCache.Selections

namespace LogCache.WalkLossless

open AvlNode AvlTree Envelopes EnvelopeStore StoreTransitions Traversal GetCompleteness ReadPath
  Selections Paging Runs

theorem toInt_add_one {t u : Int64} (h : t < u) : (t + 1).toInt = t.toInt + 1 := by
  have hlt := Int64.lt_iff_toInt_lt.mp h
  have hlo := Int64.le_toInt t
  have hhi := Int64.toInt_lt u
  rw [Int64.toInt_add]
  have : (1 : Int64).toInt = 1 := rfl
  rw [this]
  apply Int.bmod_eq_of_le <;> omega

theorem add_one_le_iff {t u : Int64} (h : t < u) (w : Int64) : t + 1 ≤ w ↔ t < w := by
  rw [Int64.le_iff_toInt_le, Int64.lt_iff_toInt_lt, toInt_add_one h]
  omega

theorem le_sub_two {t stop now : Int64} (h : t < stop) (hnow : stop < now) : t ≤ now - 2 := by
  have h₁ := Int64.lt_iff_toInt_lt.mp h
  have h₂ := Int64.lt_iff_toInt_lt.mp hnow
  have hlo := Int64.le_toInt t
  have hhi := Int64.toInt_lt now
  have htwo : (2 : Int64).toInt = 2 := rfl
  have hsub : (now - 2).toInt = now.toInt - 2 := by
    rw [Int64.toInt_sub, htwo]
    apply Int.bmod_eq_of_le <;> omega
  rw [Int64.le_iff_toInt_le, hsub]
  omega

theorem rdropWhile_eq_filter {α : Type} (p : α → Bool) (xs : List α)
    (h : xs.Pairwise fun x y => p x → p y) :
    xs.rdropWhile p = xs.filter fun x => !p x := by
  induction xs using List.reverseRecOn with
  | nil => rfl
  | append_singleton xs x ih =>
      obtain ⟨hxs, _, hx⟩ := List.pairwise_append.mp h
      rw [List.rdropWhile_concat, List.filter_append]
      cases hp : p x with
      | true => simp [hp, ih hxs]
      | false =>
          have hall : xs.filter (fun x => !p x) = xs := by
            apply List.filter_eq_self.mpr
            intro y hy
            cases hy' : p y with
            | false => rfl
            | true =>
                have := hx y hy x (List.mem_singleton_self x) hy'
                rw [hp] at this
                cases this
          simp [hp, hall]

def Ascending (es : List Envelope) : Prop := es.Pairwise fun e e' => e.timestamp ≤ e'.timestamp

theorem dropBeyond_delayFunc {es : List Envelope} (hes : Ascending es) {stop now : Int64}
    (hnow : stop < now) :
    dropBeyond (some stop) (delayFunc 2 now es) =
      es.filter fun e => decide (e.timestamp < stop) := by
  have hdelay : delayFunc 2 now es = es.filter fun e => decide (e.timestamp ≤ now - 2) := by
    rw [delayFunc, rdropWhile_eq_filter]
    · simp only [Bool.not_not]
    · refine hes.imp fun h hp => ?_
      simp only [Bool.not_eq_true', decide_eq_false_iff_not] at hp ⊢
      exact fun hq => hp (h.trans hq)
  rw [dropBeyond, rdropWhile_eq_filter, hdelay, List.filter_filter]
  · apply List.filter_congr
    intro e _
    simp only [Bool.not_not]
    by_cases h : e.timestamp < stop
    · simp [h, le_sub_two h hnow]
    · simp [h]
  · rw [hdelay]
    refine (hes.filter _).imp fun h hp => ?_
    simp only [Bool.not_eq_true', decide_eq_false_iff_not] at hp ⊢
    exact fun hq => hp (h.trans_lt hq)

def stops (v : Visit) : Bool := !v.member

theorem pageOf_pages (want : Envelope → Bool) (past : Int64 → Bool) (limit : Nat)
    (pre vs : List Visit)
    (hpast : vs.Pairwise fun v w => past v.envelope.timestamp → past w.envelope.timestamp)
    (hpre : Open limit stops (wanted want past) pre) :
    ∃ vs₁ vs₂, vs = vs₁ ++ vs₂ ∧
      pageOf want past limit ((pre.filter (wanted want past)).map Visit.envelope) vs =
        ((pre ++ vs₁).filter (wanted want past)).map Visit.envelope ∧
      Open limit stops (wanted want past) (pre ++ vs₁).dropLast ∧
      ((∀ w ∈ vs₂, wanted want past w = false) ∨
        IsPage limit stops (wanted want past) (pre ++ vs₁)) := by
  induction vs generalizing pre with
  | nil =>
      exact ⟨[], [], rfl, by rw [List.append_nil]; rfl, by simpa using hpre.dropLast,
        .inl (by simp)⟩
  | cons v vs ih =>
      obtain ⟨hv, hvs⟩ := List.pairwise_cons.mp hpast
      have htaken : taken want past ((pre.filter (wanted want past)).map Visit.envelope) v =
          ((pre ++ [v]).filter (wanted want past)).map Visit.envelope := by
        simpa [List.filter_append] using @taken_append_filter want past
          ((pre.filter (wanted want past)).map Visit.envelope) [] v
      have hlength : ((pre ++ [v]).filter (wanted want past)).length =
          (pre ++ [v]).countP (wanted want past) := List.countP_eq_length_filter.symm
      rw [pageOf, htaken]
      split_ifs with hend
      · refine ⟨[v], vs, rfl, rfl, by rwa [List.dropLast_concat], ?_⟩
        rw [ends, Bool.and_eq_true, Bool.or_eq_true, decide_eq_true_eq, List.length_map,
          hlength] at hend
        rcases hend.1 with hp | hfull
        · exact .inl fun w hw => by simp [wanted, hv w hw hp]
        · exact .inr ⟨pre, v, rfl, hpre, hend.2, Int.ofNat_le.mp hfull⟩
      · have hopen : ¬ Full limit stops (wanted want past) pre v := by
          rintro ⟨hstops, hfull⟩
          apply hend
          rw [ends, Bool.and_eq_true, Bool.or_eq_true, decide_eq_true_eq, List.length_map, hlength]
          exact ⟨.inr (Int.ofNat_le.mpr hfull), hstops⟩
        obtain ⟨vs₁, vs₂, rfl, hpage, hfirst, hrest⟩ := ih (pre ++ [v]) hvs (hpre.concat hopen)
        rw [List.append_assoc, List.singleton_append] at hpage hfirst hrest
        exact ⟨v :: vs₁, vs₂, rfl, hpage, hfirst, hrest⟩

def since (start : Int64) (vs : List Visit) : List Visit :=
  vs.filter fun v => decide (start ≤ v.envelope.timestamp)

theorem mem_since {start : Int64} {vs : List Visit} {v : Visit} :
    v ∈ since start vs ↔ v ∈ vs ∧ start ≤ v.envelope.timestamp := by
  rw [since, List.mem_filter, decide_eq_true_eq]

theorem since_suffix (start : Int64) (vs : List Visit)
    (h : vs.Pairwise fun v w => v.envelope.timestamp ≤ w.envelope.timestamp) :
    since start vs <:+ vs := by
  induction vs with
  | nil => exact List.suffix_rfl
  | cons v vs ih =>
      obtain ⟨hv, hvs⟩ := List.pairwise_cons.mp h
      by_cases hs : start ≤ v.envelope.timestamp
      · have hall : since start (v :: vs) = v :: vs := by
          apply List.filter_eq_self.mpr
          exact List.forall_mem_cons.mpr
            ⟨decide_eq_true hs, fun w hw => decide_eq_true (hs.trans (hv w hw))⟩
        rw [hall]
      · rw [since, List.filter_cons_of_neg (by simpa using hs)]
        exact (ih hvs).trans (List.suffix_cons v vs)

def due (want : Envelope → Bool) (start stop : Int64) (v : Visit) : Bool :=
  inRange start stop v.envelope && want v.envelope

theorem due_iff {want : Envelope → Bool} {start stop : Int64} {v : Visit} :
    due want start stop v ↔
      (start ≤ v.envelope.timestamp ∧ v.envelope.timestamp < stop) ∧ want v.envelope := by
  simp only [due, inRange, Bool.and_eq_true, decide_eq_true_eq]

theorem due_of_le {want : Envelope → Bool} {start stop : Int64} {v : Visit}
    (h : stop ≤ v.envelope.timestamp) : due want start stop v = false := by
  simp [due, inRange, not_lt.mpr h]

/-- Of the nodes in their order, no page of a hundred due ones ends between two
of the same timestamp. -/
def PagesKeepGroups (want : Envelope → Bool) (start stop : Int64) (vs : List Visit) : Prop :=
  KeepsTimes 100 stops (due want start stop) (fun v => v.envelope.timestamp) vs

instance (want : Envelope → Bool) (start stop : Int64) (vs : List Visit) :
    Decidable (PagesKeepGroups want start stop vs) :=
  inferInstanceAs (Decidable (KeepsTimes _ _ _ _ _))

/-- What a walk over `nodes` makes of those that are due: it returns some of
them if there are any, and all of them exactly if no page ends within a
timestamp. -/
structure Walked (want : Envelope → Bool) (start stop : Int64) (nodes res : List Visit) :
    Prop where
  sublist : res.Sublist (nodes.filter (due want start stop))
  found : res = [] → nodes.filter (due want start stop) = []
  whole : res = nodes.filter (due want start stop) ↔ PagesKeepGroups want start stop nodes

theorem walked_nil {want : Envelope → Bool} {start stop : Int64} {nodes : List Visit}
    (h : ∀ v ∈ nodes, due want start stop v = false) : Walked want start stop nodes [] := by
  have hnil : nodes.filter (due want start stop) = [] :=
    List.filter_eq_nil_iff.mpr fun v hv => Bool.eq_false_iff.mp (h v hv)
  exact ⟨List.nil_sublist _, fun _ => hnil, iff_of_true hnil.symm (keepsTimes_of_not_due h)⟩

section page

variable {tree : Tree Int64 Envelope} {want : Envelope → Bool} {start stop cursor readStop : Int64}

theorem visits_ascending (ht : TimeOrdered tree) :
    (visits .left tree.root).Pairwise fun v w => v.envelope.timestamp ≤ w.envelope.timestamp :=
  visits_of_entries ht false fun _ _ h => h

def page (want : Envelope → Bool) (tree : Tree Int64 Envelope) (cursor readStop : Int64) :
    List Envelope :=
  pageOf want (passes false cursor readStop) 100 []
    (reached (firstSide false) (skips false cursor readStop) tree.root)

theorem wanted_eq_due (hcursor : start ≤ cursor) (hstop : stop ≤ readStop) {v : Visit}
    (hv : cursor ≤ v.envelope.timestamp) (hlt : v.envelope.timestamp < stop) :
    wanted want (passes false cursor readStop) v = due want start stop v := by
  simp [wanted, passes, due, inRange, hcursor.trans hv, hlt, hlt.trans_le hstop]

theorem wanted_of_due (hcursor : start ≤ cursor) (hstop : stop ≤ readStop) {v : Visit}
    (hv : cursor ≤ v.envelope.timestamp) (hdue : due want start stop v) :
    wanted want (passes false cursor readStop) v := by
  rwa [wanted_eq_due hcursor hstop hv (due_iff.mp hdue).1.2]

theorem le_last {pre vs : List Visit} {v : Visit}
    (h : (pre ++ [v] ++ vs).Pairwise fun v w => v.envelope.timestamp ≤ w.envelope.timestamp) :
    ∀ u ∈ pre ++ [v], u.envelope.timestamp ≤ v.envelope.timestamp := by
  intro u hu
  rcases List.mem_append.mp hu with hu | hu
  · exact (List.pairwise_append.mp (List.pairwise_append.mp h).1).2.2 u hu v
      (List.mem_singleton_self v)
  · rw [List.mem_singleton.mp hu]

theorem isPage_due (hcursor : start ≤ cursor) (hstop : stop ≤ readStop) {vs₁ vs₂ : List Visit}
    (hsorted : (vs₁ ++ vs₂).Pairwise fun v w => v.envelope.timestamp ≤ w.envelope.timestamp)
    (hle : ∀ v ∈ vs₁ ++ vs₂, cursor ≤ v.envelope.timestamp)
    (hpage : IsPage 100 stops (wanted want (passes false cursor readStop)) vs₁) :
    (∀ w ∈ vs₂, due want start stop w = false) ∨ IsPage 100 stops (due want start stop) vs₁ := by
  obtain ⟨pre, v, rfl, hopen, hfull⟩ := hpage
  by_cases hv : v.envelope.timestamp < stop
  · right
    have hsame : ∀ u ∈ pre ++ [v],
        wanted want (passes false cursor readStop) u = due want start stop u := fun u hu =>
      wanted_eq_due hcursor hstop (hle u (List.mem_append_left _ hu))
        ((le_last hsorted u hu).trans_lt hv)
    refine ⟨pre, v, rfl, ?_, hfull.1, ?_⟩
    · exact hopen.mono fun u hu hdue => by rwa [hsame u (List.mem_append_left _ hu)]
    · exact hfull.2.trans_eq (List.countP_congr fun u hu => by rw [hsame u hu])
  · left
    intro w hw
    have hlast := (List.pairwise_append.mp hsorted).2.2 v
      (List.mem_append_right _ (List.mem_singleton_self v)) w hw
    exact due_of_le ((not_lt.mp hv).trans hlast)

theorem page_pages (ht : TimeOrdered tree) (hcursor : start ≤ cursor) (hstop : stop ≤ readStop) :
    ∃ vs₁ vs₂, since cursor (visits .left tree.root) = vs₁ ++ vs₂ ∧
      Ascending (page want tree cursor readStop) ∧
      (page want tree cursor readStop).filter (fun e => decide (e.timestamp < stop)) =
        (vs₁.filter (due want start stop)).map Visit.envelope ∧
      Open 100 stops (due want start stop) vs₁.dropLast ∧
      ((∀ w ∈ vs₂, due want start stop w = false) ∨
        IsPage 100 stops (due want start stop) vs₁) := by
  have hreach : reached (firstSide false) (skips false cursor readStop) tree.root =
      since cursor (visits .left tree.root) := by
    rw [reached_of_timeOrdered ht]
    simp [skips, firstSide, since]
  obtain ⟨vs₁, vs₂, hvs, hpage, hopen, hrest⟩ :=
    pageOf_pages want (passes false cursor readStop) 100 [] (since cursor (visits .left tree.root))
      ((passes_pairwise ht false cursor readStop).filter _) open_nil
  rw [← hreach] at hpage
  rw [List.nil_append] at hpage hopen hrest
  have hle : ∀ v ∈ vs₁ ++ vs₂, cursor ≤ v.envelope.timestamp := fun v hv => by
    rw [← hvs] at hv
    exact (mem_since.mp hv).2
  have hsorted : (vs₁ ++ vs₂).Pairwise fun v w =>
      v.envelope.timestamp ≤ w.envelope.timestamp := by
    rw [← hvs]
    exact (visits_ascending ht).filter _
  refine ⟨vs₁, vs₂, hvs, ?_, ?_, ?_, ?_⟩
  · rw [page]
    refine hpage ▸ List.pairwise_map.mpr ?_
    exact ((List.pairwise_append.mp hsorted).1).filter _
  · rw [page]
    refine (congrArg _ hpage).trans ?_
    rw [List.filter_map, List.filter_filter]
    congr 1
    apply List.filter_congr
    intro v hv
    by_cases hlt : v.envelope.timestamp < stop
    · rw [wanted_eq_due hcursor hstop (hle v (List.mem_append_left _ hv)) hlt]
      simp [hlt]
    · rw [due_of_le (not_lt.mp hlt)]
      simp [hlt]
  · refine hopen.mono fun v hv => wanted_of_due hcursor hstop ?_
    exact hle v (List.mem_append_left _ (List.mem_of_mem_dropLast hv))
  · rcases hrest with hrest | hrest
    · left
      intro w hw
      by_contra hdue
      rw [Bool.not_eq_false] at hdue
      have := wanted_of_due hcursor hstop (hle w (List.mem_append_right _ hw)) hdue
      rw [hrest w hw] at this
      cases this
    · exact isPage_due hcursor hstop hsorted hle hrest

end page

section types

def named : EnvelopeType → Bool
  | .any | .unrecognized _ => false
  | _ => true

theorem filter_typeByName (types : List EnvelopeType) :
    (types.map typeByName).filter (· ≠ .any) = types.filter named := by
  induction types with
  | nil => rfl
  | cons t types ih =>
      rw [List.map_cons, List.filter_cons, List.filter_cons, ih]
      cases t <;> rfl

def wants (types : List EnvelopeType) (e : Envelope) : Bool :=
  decide (types.filter named = []) || (types.filter named).any (hasType e)

def requested (types : List EnvelopeType) (e : Envelope) : Bool :=
  decide (types = []) || types.any (hasType e)

theorem anyEnvelopeType_eq (e : Envelope) (types : List EnvelopeType) :
    anyEnvelopeType e (types.filter named) = .ok ((types.filter named).any (hasType e)) := by
  rcases GetPages.anyEnvelopeType_eq e (types.filter named) with h | ⟨_, number, hmem⟩
  · exact h
  · exact absurd (List.mem_filter.mp hmem).2 Bool.false_ne_true

theorem validEnvelopeType_wants (types : List EnvelopeType) (e : Envelope) :
    validEnvelopeType e (storeTypes (types.map typeByName)) = .ok (wants types e) := by
  rw [storeTypes, filter_typeByName, wants]
  cases h : types.filter named with
  | nil => rfl
  | cons t rest =>
      have := anyEnvelopeType_eq e types
      rw [h] at this
      simpa [validEnvelopeType] using this

theorem wants_requested (types : List EnvelopeType) :
    (∀ e, wants types e → requested types e) ∨
      ∀ e, wants types e = true ∧ requested types e = false := by
  by_cases hnil : types.filter named = []
  · by_cases hany : types = [] ∨ .any ∈ types
    · left
      intro e _
      rcases hany with rfl | hany
      · rfl
      · have : types.any (hasType e) = true := List.any_eq_true.mpr ⟨.any, hany, rfl⟩
        simp [requested, this]
    · right
      obtain ⟨hne, hany⟩ := not_or.mp hany
      refine fun e => ⟨by simp [wants, hnil], ?_⟩
      have hnone : types.any (hasType e) = false := by
        rw [List.any_eq_false]
        intro t ht
        have hnamed := List.filter_eq_nil_iff.mp hnil t ht
        cases t with
        | any => exact absurd ht hany
        | unrecognized n => exact Bool.false_ne_true
        | _ => exact absurd rfl hnamed
      simp [requested, hne, hnone]
  · left
    intro e he
    rw [wants, decide_eq_false hnil, Bool.false_or, List.any_eq_true] at he
    obtain ⟨t, ht, htype⟩ := he
    have : types.any (hasType e) = true :=
      List.any_eq_true.mpr ⟨t, (List.mem_filter.mp ht).1, htype⟩
    simp [requested, this]

end types

section walk

variable {s : Store} {sourceId : String} {types : List EnvelopeType} {start stop cursor : Int64}

def configFor (stop : Int64) (types : List EnvelopeType) : WalkConfig :=
  ⟨some stop, some 0, types, "", 2⟩

theorem read_page (compile : Compile) (now : Int64) (s : Store) (sourceId : String)
    (types : List EnvelopeType) {cursor stop : Int64} (h : cursor < stop) :
    read compile now s (grpcRequest sourceId cursor (walkOptions (configFor stop types))) =
      .ok (.ok (page (wants types) (storageFor s sourceId).tree cursor
        (if stop = 0 then now else stop))) := by
  have horder : ¬ (stop ≠ 0 ∧ stop < cursor) := fun hc => lt_asymm h hc.2
  have hget := get_storageFor s sourceId (validEnvelopeType_wants types) cursor
    (if stop = 0 then now else stop) 100 false
  have h₁ : ¬ (1000 : Int64) < 0 := by decide
  have h₂ : ¬ (0 : Int64) < 0 := by decide
  simp only [ReadPath.read, grpcRequest, walkOptions, configFor, Option.getD_some, if_neg horder,
    if_neg h₁, if_neg h₂, if_true, Option.getD_none, compileNameFilter]
  rw [show ((100 : Int64).toInt) = 100 from rfl, hget]
  rfl

theorem walkStep_page (types : List EnvelopeType) {es : List Envelope} (hes : Ascending es)
    {now : Int64} (hnow : stop < now) {st : WalkState} (hst : st.receivedEmpty = false) :
    walkStep (configFor stop types) now (.ok es) st =
      match (es.filter fun e => decide (e.timestamp < stop)).getLast? with
      | none =>
          ({ st with receivedEmpty := true, backoff := st.backoff.onEmpty.1 }, st.backoff.onEmpty.2)
      | some last =>
          if stop ≤ last.timestamp + 1 then
            ({ st with backoff := { st.backoff with count := 0 },
                       visited := st.visited ++ es.filter fun e => decide (e.timestamp < stop) },
              false)
          else
            ({ st with start := last.timestamp + 1, backoff := { st.backoff with count := 0 },
                       visited := st.visited ++ es.filter fun e => decide (e.timestamp < stop) },
              true) := by
  have hdelay : (configFor stop types).delay = 2 := rfl
  have hstep := @walkStep_ok (configFor stop types) stop st rfl hst now es
  rw [hdelay, dropBeyond_delayFunc hes hnow] at hstep
  exact hstep

section turn

variable {want : Envelope → Bool} {vs vs₁ vs₂ : List Visit} {last : Envelope}
  (hsorted : vs.Pairwise fun v w => v.envelope.timestamp ≤ w.envelope.timestamp)
  (hsplit : since cursor vs = vs₁ ++ vs₂)
  (hlast : ((vs₁.filter (due want start stop)).map Visit.envelope).getLast? = some last)

include hsplit hlast in
theorem exists_last : ∃ v ∈ vs₁, due want start stop v ∧ v.envelope = last ∧
    cursor ≤ last.timestamp ∧ last.timestamp < stop := by
  obtain ⟨v, hv, rfl⟩ := List.mem_map.mp (List.mem_of_getLast? hlast)
  obtain ⟨hv, hdue⟩ := List.mem_filter.mp hv
  have hsince : v ∈ since cursor vs := hsplit ▸ List.mem_append_left _ hv
  exact ⟨v, hv, hdue, rfl, (mem_since.mp hsince).2, (due_iff.mp hdue).1.2⟩

include hsorted hsplit hlast in
theorem le_last_due : ∀ v ∈ vs₁.filter (due want start stop),
    v.envelope.timestamp ≤ last.timestamp := by
  have hall : (vs₁ ++ vs₂).Pairwise fun v w => v.envelope.timestamp ≤ w.envelope.timestamp :=
    hsplit ▸ hsorted.filter _
  have hpage := ((List.pairwise_append.mp hall).1).filter (due want start stop)
  intro v hv
  exact le_of_getLast? (List.pairwise_map.mpr hpage) hlast _ (List.mem_map_of_mem hv)

include hsorted hsplit hlast in
theorem last_le_due : ∀ w ∈ vs₂, last.timestamp ≤ w.envelope.timestamp := by
  have hall : (vs₁ ++ vs₂).Pairwise fun v w => v.envelope.timestamp ≤ w.envelope.timestamp :=
    hsplit ▸ hsorted.filter _
  obtain ⟨v, hv, -, rfl, -⟩ := exists_last hsplit hlast
  exact (List.pairwise_append.mp hall).2.2 v hv

include hsorted hsplit hlast in
theorem due_since : (since (last.timestamp + 1) vs).filter (due want start stop) =
    (vs₂.filter (due want start stop)).filter fun v =>
      decide (last.timestamp < v.envelope.timestamp) := by
  obtain ⟨-, -, -, -, hcursor, hstop⟩ := exists_last hsplit hlast
  have hsince : since (last.timestamp + 1) vs =
      (since cursor vs).filter fun v => decide (last.timestamp < v.envelope.timestamp) := by
    rw [since, since, List.filter_filter]
    apply List.filter_congr
    intro v _
    have hiff := add_one_le_iff hstop v.envelope.timestamp
    by_cases h : last.timestamp < v.envelope.timestamp
    · simp [h, hiff, hcursor.trans h.le]
    · simp [h, hiff, -not_lt, -not_le]
  have hnone : (vs₁.filter (due want start stop)).filter
      (fun v => decide (last.timestamp < v.envelope.timestamp)) = [] := by
    apply List.filter_eq_nil_iff.mpr
    intro v hv
    simpa using le_last_due hsorted hsplit hlast v hv
  rw [hsince, hsplit, List.filter_comm, List.filter_append, List.filter_append, hnone,
    List.nil_append]

include hsorted hsplit hlast in
theorem timesApart_iff :
    TimesApart (due want start stop) (fun v => v.envelope.timestamp) vs₁ vs₂ ↔
      ∀ w ∈ vs₂.filter (due want start stop), last.timestamp < w.envelope.timestamp := by
  constructor
  · intro h w hw
    obtain ⟨hw, hdue⟩ := List.mem_filter.mp hw
    obtain ⟨v, hv, hvdue, rfl, -⟩ := exists_last hsplit hlast
    exact lt_of_le_of_ne (last_le_due hsorted hsplit hlast w hw) (h v hv w hw hvdue hdue)
  · intro h u hu w hw hudue hwdue
    have hle := le_last_due hsorted hsplit hlast u (List.mem_filter.mpr ⟨hu, hudue⟩)
    exact (hle.trans_lt (h w (List.mem_filter.mpr ⟨hw, hwdue⟩))).ne

include hsorted hsplit hlast in
/-- What comes after a page is complete exactly if the page does not end within
a timestamp and what comes after the next start is complete. -/
theorem res_eq_rest_iff {res : List Visit}
    (hpage : IsPage 100 stops (due want start stop) vs₁)
    (hsub : res.Sublist ((since (last.timestamp + 1) vs).filter (due want start stop)))
    (hres : res = (since (last.timestamp + 1) vs).filter (due want start stop) ↔
      PagesKeepGroups want start stop (since (last.timestamp + 1) vs)) :
    res = vs₂.filter (due want start stop) ↔ PagesKeepGroups want start stop (vs₁ ++ vs₂) := by
  have hdue := due_since hsorted hsplit hlast
  have hsuffix : vs₂ <:+ vs :=
    ((hsplit ▸ List.suffix_append vs₁ vs₂ : vs₂ <:+ since cursor vs)).trans
      (since_suffix _ _ hsorted)
  rw [PagesKeepGroups, keepsTimes_page hpage, timesApart_iff hsorted hsplit hlast]
  have hwhole : (∀ w ∈ vs₂.filter (due want start stop),
      last.timestamp < w.envelope.timestamp) ↔
      (since (last.timestamp + 1) vs).filter (due want start stop) =
        vs₂.filter (due want start stop) := by
    rw [hdue, List.filter_eq_self]
    simp only [decide_eq_true_eq]
  rw [hwhole]
  constructor
  · intro heq
    have hall : (since (last.timestamp + 1) vs).filter (due want start stop) =
        vs₂.filter (due want start stop) := by
      rw [heq, hdue] at hsub
      rw [hdue]
      exact List.Sublist.antisymm List.filter_sublist hsub
    refine ⟨hall, ?_⟩
    rw [← keepsTimes_of_suffixes (by decide) (since_suffix _ _ hsorted) hsuffix hall]
    exact hres.mp (heq.trans hall.symm)
  · rintro ⟨hall, hkeeps⟩
    rw [← hall]
    refine hres.mpr ?_
    rw [PagesKeepGroups, keepsTimes_of_suffixes (by decide) (since_suffix _ _ hsorted) hsuffix hall]
    exact hkeeps

include hsorted hsplit hlast in
theorem length_due_since_lt :
    ((since (last.timestamp + 1) vs).filter (due want start stop)).length <
      ((since cursor vs).filter (due want start stop)).length := by
  obtain ⟨v, hv, hdue, -⟩ := exists_last hsplit hlast
  have hpos : 0 < (vs₁.filter (due want start stop)).length :=
    List.length_pos_of_mem (List.mem_filter.mpr ⟨hv, hdue⟩)
  have hle := (due_since hsorted hsplit hlast ▸ List.filter_sublist :
    ((since (last.timestamp + 1) vs).filter (due want start stop)).Sublist
      (vs₂.filter (due want start stop))).length_le
  rw [hsplit, List.filter_append, List.length_append]
  omega

include hsorted hsplit hlast in
theorem turn_walked {res : List Visit}
    (hopen : Open 100 stops (due want start stop) vs₁.dropLast)
    (hrest : (∀ w ∈ vs₂, due want start stop w = false) ∨
      IsPage 100 stops (due want start stop) vs₁)
    (h : Walked want start stop (since (last.timestamp + 1) vs) res) :
    Walked want start stop (since cursor vs) (vs₁.filter (due want start stop) ++ res) := by
  have hsub : res.Sublist (vs₂.filter (due want start stop)) :=
    h.sublist.trans (due_since hsorted hsplit hlast ▸ List.filter_sublist)
  rw [hsplit]
  constructor
  · rw [List.filter_append]
    exact (List.Sublist.refl _).append hsub
  · intro hnil
    obtain ⟨v, hv, hdue, -⟩ := exists_last hsplit hlast
    exact absurd (List.append_eq_nil_iff.mp hnil).1
      (List.ne_nil_of_mem (List.mem_filter.mpr ⟨hv, hdue⟩))
  · rw [List.filter_append, List.append_cancel_left_eq]
    rcases hrest with hnone | hpage
    · have hnil : vs₂.filter (due want start stop) = [] :=
        List.filter_eq_nil_iff.mpr fun w hw => Bool.eq_false_iff.mp (hnone w hw)
      refine iff_of_true ?_ (keepsTimes_of_open hopen hnone)
      rw [hnil] at hsub ⊢
      exact List.sublist_nil.mp hsub
    · exact res_eq_rest_iff hsorted hsplit hlast hpage h.sublist h.whole

end turn

section whole

variable (compile : Compile) {serverClock clock : Nat → Int64}
  (hserver : ∀ i, stop < serverClock i) (hclock : ∀ i, stop < clock i)
  (ht : TimeOrdered (storageFor s sourceId).tree)

def nodesFrom (s : Store) (sourceId : String) (cursor : Int64) : List Visit :=
  since cursor (visits .left (storageFor s sourceId).tree.root)

include hserver hclock ht in
theorem walk_pages (n i : Nat) (st : WalkState) (hstart : start ≤ st.start) (hlt : st.start < stop)
    (hempty : st.receivedEmpty = false) (honly : st.backoff.onlyErr = true)
    (hn : ((nodesFrom s sourceId st.start).filter (due (wants types) start stop)).length < n) :
    ∃ fuel res, walk (configFor stop types) (fun i => read compile (serverClock i) s) clock sourceId
        fuel i st = some (.ok (st.visited ++ res.map Visit.envelope)) ∧
      Walked (wants types) start stop (nodesFrom s sourceId st.start) res := by
  induction n generalizing i st with
  | zero => exact absurd hn (Nat.not_lt_zero _)
  | succ n ih =>
      have hsorted := visits_ascending ht
      have hreach : stop ≤ if stop = 0 then serverClock i else stop := by
        split_ifs
        · exact (hserver i).le
        · exact le_rfl
      obtain ⟨vs₁, vs₂, hsplit, hasc, hfilter, hopen, hrest⟩ :=
        @page_pages _ (wants types) _ _ _ _ ht hstart hreach
      have hread := read_page compile (serverClock i) s sourceId types hlt
      have hstep := walkStep_page types hasc (hclock i) hempty
      rw [hfilter] at hstep
      cases hlast : ((vs₁.filter (due (wants types) start stop)).map Visit.envelope).getLast? with
      | none =>
          have hps : vs₁.filter (due (wants types) start stop) = [] :=
            List.map_eq_nil_iff.mp (List.getLast?_eq_none_iff.mp hlast)
          have hnone := hrest.resolve_right fun hpage => hpage.filter_ne_nil (by decide) hps
          have hall : ∀ v ∈ nodesFrom s sourceId st.start,
              due (wants types) start stop v = false := by
            intro v hv
            rw [nodesFrom, hsplit] at hv
            rcases List.mem_append.mp hv with hv | hv
            · exact Bool.eq_false_iff.mpr (List.filter_eq_nil_iff.mp hps v hv)
            · exact hnone v hv
          refine ⟨1, [], ?_, walked_nil hall⟩
          rw [walk, hread]
          simp only [hstep, hlast, RetryBackoff.onEmpty, honly, if_true]
          simp
      | some last =>
          by_cases hend : stop ≤ last.timestamp + 1
          · have hpast : ∀ w ∈ since (last.timestamp + 1)
                (visits .left (storageFor s sourceId).tree.root),
                due (wants types) start stop w = false := fun w hw =>
              due_of_le (hend.trans (mem_since.mp hw).2)
            refine ⟨1, vs₁.filter (due (wants types) start stop) ++ [], ?_,
              turn_walked hsorted hsplit hlast hopen hrest (walked_nil hpast)⟩
            rw [walk, hread, List.append_nil]
            simp only [hstep, hlast, if_pos hend]
          · obtain ⟨-, -, -, -, hcursor, hbefore⟩ := exists_last hsplit hlast
            have hnext := hcursor.trans ((add_one_le_iff hbefore _).mp le_rfl).le
            have hless := length_due_since_lt hsorted hsplit hlast
            obtain ⟨fuel, res, hwalk, hres⟩ := ih (i + 1)
              { st with
                start := last.timestamp + 1
                backoff := { st.backoff with count := 0 }
                visited := st.visited ++
                  (vs₁.filter (due (wants types) start stop)).map Visit.envelope }
              (hstart.trans hnext) (not_le.mp hend) hempty honly
              (hless.trans_le (Nat.le_of_lt_succ hn))
            refine ⟨fuel + 1, vs₁.filter (due (wants types) start stop) ++ res, ?_,
              turn_walked hsorted hsplit hlast hopen hrest hres⟩
            rw [walk, hread]
            simp only [hstep, hlast, if_neg hend]
            rw [hwalk, List.map_append, List.append_assoc]

end whole

theorem stored_eq_visits (s : Store) (sourceId : String) :
    stored s sourceId = (visits .left (storageFor s sourceId).tree.root).map Visit.envelope := by
  rw [stored, Tree.entries, ← map_visits_left, List.map_map]
  rfl

theorem filter_stored (s : Store) (sourceId : String) (want : Envelope → Bool)
    (start stop : Int64) :
    (stored s sourceId).filter (fun e => inRange start stop e && want e) =
      ((nodesFrom s sourceId start).filter (due want start stop)).map Visit.envelope := by
  rw [stored_eq_visits, List.filter_map, nodesFrom, since, List.filter_filter]
  congr 1
  apply List.filter_congr
  intro v _
  by_cases h : start ≤ v.envelope.timestamp <;> simp [due, inRange, h]

def TypesHonoured (types : List EnvelopeType) (start stop : Int64) (es : List Envelope) : Prop :=
  ∀ e ∈ es, inRange start stop e → wants types e = requested types e

instance (types : List EnvelopeType) (start stop : Int64) (es : List Envelope) :
    Decidable (TypesHonoured types start stop es) :=
  inferInstanceAs (Decidable (∀ e ∈ es, inRange start stop e → wants types e = requested types e))

theorem due_requested (h : TypesHonoured types start stop (stored s sourceId)) {v : Visit}
    (hv : v ∈ visits .left (storageFor s sourceId).tree.root) :
    due (wants types) start stop v = due (requested types) start stop v := by
  have hstored : v.envelope ∈ stored s sourceId := by
    rw [stored_eq_visits]
    exact List.mem_map_of_mem hv
  rw [due, due]
  cases hrange : inRange start stop v.envelope with
  | false => rfl
  | true => rw [h v.envelope hstored hrange]

theorem keepGroups_nodesFrom (ht : TimeOrdered (storageFor s sourceId).tree)
    (want : Envelope → Bool) :
    PagesKeepGroups want start stop (visits .left (storageFor s sourceId).tree.root) ↔
      PagesKeepGroups want start stop (nodesFrom s sourceId start) := by
  refine keepsTimes_of_suffix (by decide) (since_suffix _ _ (visits_ascending ht)) ?_
  rw [nodesFrom, since, List.filter_filter]
  apply List.filter_congr
  intro v _
  by_cases h : start ≤ v.envelope.timestamp <;> simp [due, inRange, h]

theorem exists_nodesFrom {e : Envelope} (he : e ∈ stored s sourceId)
    (hrange : inRange start stop e = true) :
    ∃ v ∈ nodesFrom s sourceId start, v.envelope = e := by
  rw [stored_eq_visits] at he
  obtain ⟨v, hv, rfl⟩ := List.mem_map.mp he
  rw [inRange, Bool.and_eq_true, decide_eq_true_eq] at hrange
  exact ⟨v, mem_since.mpr ⟨hv, hrange.1⟩, rfl⟩

theorem honoured_of_le {res : List Visit} (hle : ∀ e, wants types e → requested types e)
    (h : Walked (wants types) start stop (nodesFrom s sourceId start) res)
    (hlen : res.length =
      ((nodesFrom s sourceId start).filter (due (requested types) start stop)).length) :
    TypesHonoured types start stop (stored s sourceId) ∧
      res = (nodesFrom s sourceId start).filter (due (wants types) start stop) := by
  have hmono : ((nodesFrom s sourceId start).filter (due (wants types) start stop)).Sublist
      ((nodesFrom s sourceId start).filter (due (requested types) start stop)) := by
    apply List.monotone_filter_right
    intro v hv
    rw [due, Bool.and_eq_true] at hv ⊢
    exact ⟨hv.1, hle _ hv.2⟩
  have hsame := hmono.eq_of_length_le (hlen ▸ h.sublist.length_le)
  refine ⟨fun e he hrange => ?_, h.sublist.eq_of_length_le (hlen ▸ hmono.length_le)⟩
  obtain ⟨v, hv, rfl⟩ := exists_nodesFrom he hrange
  rw [Bool.eq_iff_iff]
  refine ⟨hle _, fun hreq => ?_⟩
  have hdue : v ∈ (nodesFrom s sourceId start).filter (due (wants types) start stop) := by
    rw [hsame, List.mem_filter, due, hrange, hreq]
    exact ⟨hv, rfl⟩
  exact (due_iff.mp (List.mem_filter.mp hdue).2).2

theorem honoured_of_nil (hall : ∀ e, wants types e = true)
    (h : Walked (wants types) start stop (nodesFrom s sourceId start) []) :
    TypesHonoured types start stop (stored s sourceId) := by
  intro e he hrange
  obtain ⟨v, hv, rfl⟩ := exists_nodesFrom he hrange
  have hdue : v ∈ (nodesFrom s sourceId start).filter (due (wants types) start stop) := by
    rw [List.mem_filter, due, hrange, hall]
    exact ⟨hv, rfl⟩
  rw [h.found rfl] at hdue
  cases hdue

theorem honoured_of_eq {res : List Visit}
    (h : Walked (wants types) start stop (nodesFrom s sourceId start) res)
    (heq : res.map Visit.envelope = (stored s sourceId).filter fun e =>
      inRange start stop e && requested types e) :
    TypesHonoured types start stop (stored s sourceId) ∧
      res = (nodesFrom s sourceId start).filter (due (wants types) start stop) := by
  rw [filter_stored] at heq
  rcases wants_requested types with hle | hall
  · have hlen := congrArg List.length heq
    rw [List.length_map, List.length_map] at hlen
    exact honoured_of_le hle h hlen
  · have hnil : res = [] := by
      rw [← List.map_eq_nil_iff, heq, List.map_eq_nil_iff, List.filter_eq_nil_iff]
      intro v _
      rw [due, (hall _).2, Bool.and_false]
      exact Bool.false_ne_true
    rw [hnil] at h ⊢
    exact ⟨honoured_of_nil (fun e => (hall e).1) h, (h.found rfl).symm⟩

/-- After every run whose Puts keep the order the paged walk comes to an end. It
returns what is stored in the range with a requested type, each envelope once
and in order, exactly if the store is asked for the requested types and no page
ends within a timestamp. -/
theorem walk_lossless_iff (maxPerSource prunesPerGC : Int) (ops : List Op) (s : Store)
    (hops : Along exec KeepsOrder (newStore maxPerSource prunesPerGC) ops)
    (hrun : run exec (newStore maxPerSource prunesPerGC) ops = .ok s) (compile : Compile)
    (req : ReadRequest) (now : Int64) (serverClock clock : Nat → Int64) (hlimit : req.limit = 0)
    (hrange : req.startTime < req.endTime) (hnow : req.endTime ≤ now)
    (hclock : ∀ i, now < serverClock i ∧ now < clock i) :
    ∃ fuel res, walkingRead compile s serverClock clock fuel req = some (.ok res) ∧
      ((res = (stored s req.sourceId).filter fun e =>
          inRange req.startTime req.endTime e && requested req.envelopeTypes e) ↔
        TypesHonoured req.envelopeTypes req.startTime req.endTime (stored s req.sourceId) ∧
          PagesKeepGroups (requested req.envelopeTypes) req.startTime req.endTime
            (visits .left (storageFor s req.sourceId).tree.root)) := by
  have hs : OrderedStore s :=
    run_invariant (fun _ _ _ hs hop h => exec_orderedStore hs hop h) (fun _ _ h => by cases h) hops
      hrun
  have ht := storageFor_timeOrdered hs req.sourceId
  obtain ⟨fuel, res, hwalk, hwalked⟩ := walk_pages compile
    (fun i => hnow.trans_lt (hclock i).1) (fun i => hnow.trans_lt (hclock i).2) ht _ 0
    ⟨req.startTime, false, ⟨5, 0, true⟩, []⟩ le_rfl hrange rfl rfl (Nat.lt_succ_self _)
  refine ⟨fuel, res.map Visit.envelope, ?_, ?_⟩
  · rw [walkingRead, hlimit]
    exact hwalk
  constructor
  · intro heq
    obtain ⟨htypes, hwhole⟩ := honoured_of_eq hwalked heq
    refine ⟨htypes, ((keepGroups_nodesFrom ht _).mpr (hwalked.whole.mp hwhole)).congr
      fun v hv => ?_⟩
    exact due_requested htypes hv
  · rintro ⟨htypes, hkeeps⟩
    have hsame {v : Visit} (hv : v ∈ visits .left (storageFor s req.sourceId).tree.root) :=
      due_requested htypes hv
    have hwants := KeepsTimes.congr hkeeps fun v hv => (hsame hv).symm
    rw [filter_stored, hwalked.whole.mpr ((keepGroups_nodesFrom ht _).mp hwants)]
    congr 1
    apply List.filter_congr
    exact fun v hv => hsame (mem_since.mp hv).1

def groupWithinPage : List Op :=
  ((List.range 109).map Int64.ofNat ++ [108, 110]).map fun t => .put (bare t) "a"

/-- The first page ends at 99 and the second has both envelopes of timestamp
108. -/
theorem walk_lossless_iff_two_pages :
    ∃ s, run exec (newStore 100000 1) groupWithinPage = .ok s ∧ (stored s "a").length = 111 ∧
      ∃ fuel res, walkingRead (fun _ => .error "") s (fun _ => 5000) (fun _ => 5000) fuel
          ⟨"a", 0, 1000, 0, [.any], false, ""⟩ = some (.ok res) ∧
        res = (stored s "a").filter fun e => inRange 0 1000 e && requested [.any] e := by
  obtain ⟨s, hrun, hlength, htypes, hkeeps⟩ : ∃ s,
      run exec (newStore 100000 1) groupWithinPage = .ok s ∧
      (stored s "a").length = 111 ∧ TypesHonoured [.any] 0 1000 (stored s "a") ∧
      PagesKeepGroups (requested [.any]) 0 1000 (visits .left (storageFor s "a").tree.root) :=
    exists_of_ends (by decide +kernel)
  obtain ⟨fuel, res, hwalk, hiff⟩ :=
    walk_lossless_iff 100000 1 groupWithinPage s (by decide +kernel)
    hrun (fun _ => .error "") ⟨"a", 0, 1000, 0, [.any], false, ""⟩ 4000 (fun _ => 5000)
    (fun _ => 5000) rfl (by decide) (by decide) (fun _ => by decide)
  exact ⟨s, hrun, hlength, fuel, res, hwalk, hiff.mpr ⟨htypes, hkeeps⟩⟩

def groupAtPageEnd : List Op :=
  ((List.range 101).map Int64.ofNat ++ [100, 102]).map fun t => .put (bare t) "a"

def walkedAndStored (s : Store) : Option (Nat × Nat) :=
  match walkingRead (fun _ => .error "") s (fun _ => 5000) (fun _ => 5000) 10
    ⟨"a", 0, 1000, 0, [], false, ""⟩ with
  | some (.ok res) => some (res.length, ((stored s "a").filter (inRange 0 1000)).length)
  | _ => none

/-- The second envelope of timestamp 100 is the parent of the first: the page
ends between them, and the walk resumes after both. -/
theorem walk_splits_group :
    walkedAndStored <$> (run exec (newStore 100000 1) groupAtPageEnd).toOption =
      some (some (102, 103)) := by
  decide +kernel

end walk

end LogCache.WalkLossless
