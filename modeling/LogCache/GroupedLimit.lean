import LogCache.PlainQuery
import LogCache.Selections

namespace LogCache.GroupedLimit

open AvlTree Envelopes EnvelopeStore StoreTransitions Traversal GetCompleteness GetPages
  GetSoundness UnfudgedStore
  PlainQuery Selections Runs

section page

variable (q : Query) {limit : Int} {res : List Envelope} {vs : List Visit}

theorem append_shown (res : List Envelope) (v : Visit) (vs : List Visit) :
    res ++ (q.shown v).toList ++ vs.filterMap q.shown = res ++ (v :: vs).filterMap q.shown := by
  rw [List.filterMap_cons]
  cases q.shown v <;> simp

theorem halts_of_leaves {v : Visit} (h : q.leaves v = true) : q.halts v = true := by
  rw [Query.leaves, Bool.and_eq_true] at h
  rw [Query.halts, h.1, h.2]
  rfl

/-- From the node that fills the limit on, the traversal goes through the first
node at which it may halt. -/
theorem page_filled (v : Visit) (h : limit ≤ ((res ++ (q.shown v).toList).length : Int))
    (vs : List Visit) :
    q.page limit res (v :: vs) = res ++ (through q.halts (v :: vs)).filterMap q.shown := by
  induction vs generalizing res v with
  | nil =>
      rw [Query.page, Query.page, ite_self, through, through, ite_self, ← append_shown]
      exact (List.append_nil _).symm
  | cons w vs ih =>
      rw [Query.page, through]
      cases hhalts : q.halts v with
      | true =>
          rw [if_pos (by simpa using Or.inr h), if_pos rfl, ← append_shown]
          exact (List.append_nil _).symm
      | false =>
          have hleaves : q.leaves v = false := by
            rw [← Bool.not_eq_true]
            exact fun hleaves => by rw [halts_of_leaves q hleaves] at hhalts; cases hhalts
          have hnext :
              limit ≤ ((res ++ (q.shown v).toList ++ (q.shown w).toList).length : Int) := by
            rw [List.length_append]
            omega
          rw [hleaves, if_neg (by simp), if_neg Bool.false_ne_true, ih w hnext, append_shown]

theorem page_append {before : List Visit} (hleaves : ∀ v ∈ before, q.leaves v = false)
    (h : ((res ++ before.filterMap q.shown).length : Int) < limit) (vs : List Visit) :
    q.page limit res (before ++ vs) = q.page limit (res ++ before.filterMap q.shown) vs := by
  induction before generalizing res with
  | nil => rw [List.nil_append, List.filterMap_nil, List.append_nil]
  | cons v before ih =>
      rw [← append_shown] at h ⊢
      have hopen : ¬ limit ≤ ((res ++ (q.shown v).toList).length : Int) := by
        rw [List.length_append] at h
        omega
      rw [List.cons_append, Query.page, hleaves v List.mem_cons_self,
        if_neg (by simpa using fun _ => hopen),
        ih (fun w hw => hleaves w (List.mem_cons_of_mem _ hw)) h]

theorem page_through (limit : Int) (res : List Envelope) (vs : List Visit) :
    q.page limit res (through q.leaves vs) = q.page limit res vs := by
  induction vs generalizing res with
  | nil => rfl
  | cons v vs ih =>
      cases hleaves : q.leaves v with
      | true => simp only [through_cons_of_pos hleaves, Query.page, hleaves, Bool.true_or, if_true]
      | false => rw [through, hleaves, if_neg Bool.false_ne_true, Query.page, Query.page, ih]

theorem page_unlimited (h : ((res ++ vs.filterMap q.shown).length : Int) < limit) :
    q.page limit res vs = res ++ (through q.leaves vs).filterMap q.shown := by
  induction vs generalizing res with
  | nil => exact (List.append_nil res).symm
  | cons v vs ih =>
      rw [← append_shown] at h
      have hopen : ¬ limit ≤ ((res ++ (q.shown v).toList).length : Int) := by
        rw [List.length_append] at h
        omega
      rw [Query.page, through]
      cases q.leaves v with
      | true =>
          rw [Bool.true_or, if_pos rfl, if_pos rfl, ← append_shown]
          exact (List.append_nil _).symm
      | false =>
          rw [if_neg (by simpa using fun _ => hopen), if_neg Bool.false_ne_true, ih h, append_shown]

end page

section larger

variable (q : Query) {limit unlimited : Int} {res : List Envelope}

theorem visitStep_of_le (hle : limit ≤ unlimited) {v : Visit} {b : Bool} {res' : List Envelope}
    (h : visitStep q.past (collect q.types q.nameFilter unlimited) v res = .ok (b, res')) :
    ∃ b', visitStep q.past (collect q.types q.nameFilter limit) v res = .ok (b', res') ∧
      (b = true → b' = true) := by
  cases hp : q.past v.envelope.timestamp with
  | true =>
      rw [q.visitStep_past unlimited res hp] at h
      cases h
      exact ⟨_, q.visitStep_past limit res hp, id⟩
  | false =>
      cases hname : filterByName v.envelope q.nameFilter with
      | none =>
          rw [q.visitStep_rejected unlimited res hp hname] at h
          cases h
          exact ⟨_, q.visitStep_rejected limit res hp hname, id⟩
      | some e =>
          rw [q.visitStep_valid unlimited res hp hname] at h
          obtain ⟨valid, hvalid, h⟩ := bind_ok h
          cases h
          refine ⟨_, by rw [q.visitStep_valid limit res hp hname, hvalid]; rfl, ?_⟩
          simp only [Bool.and_eq_true, decide_eq_true_eq]
          exact fun h => ⟨hle.trans h.1, h.2⟩

theorem anyM_of_le (hle : limit ≤ unlimited) {vs : List Visit} {r : Bool × List Envelope}
    (h : vs.anyM (visitStep q.past (collect q.types q.nameFilter unlimited)) res = .ok r) :
    ∃ r', vs.anyM (visitStep q.past (collect q.types q.nameFilter limit)) res = .ok r' := by
  induction vs generalizing res with
  | nil => exact ⟨_, rfl⟩
  | cons v vs ih =>
      cases hstep : visitStep q.past (collect q.types q.nameFilter unlimited) v res with
      | error p =>
          rw [anyM_cons_of_error hstep] at h
          cases h
      | ok step =>
          obtain ⟨b, res'⟩ := step
          obtain ⟨b', hstep', hb⟩ := visitStep_of_le q hle hstep
          rw [anyM_cons_of_ok hstep] at h
          rw [anyM_cons_of_ok hstep']
          cases b' with
          | true => exact ⟨_, rfl⟩
          | false =>
              have hfalse : b = false := Bool.eq_false_iff.mpr fun h => Bool.false_ne_true (hb h)
              rw [hfalse, if_neg Bool.false_ne_true] at h
              exact ih h

theorem get_of_le (hle : limit ≤ unlimited) {s : Store} {index : String} {all : List Envelope}
    (h : get s index q.start q.stop q.types q.nameFilter unlimited q.descending = .ok all) :
    get s index q.start q.stop q.types q.nameFilter limit q.descending =
        .ok (q.page limit [] (q.nodes (storageFor s index).tree)) ∧
      all = q.page unlimited [] (q.nodes (storageFor s index).tree) := by
  have hall : all = q.page unlimited [] (q.nodes (storageFor s index).tree) := by
    rcases get_page q s index unlimited with hpage | ⟨herror, _⟩
    · rw [h] at hpage
      exact Except.ok.inj hpage
    · rw [h] at herror
      cases herror
  refine ⟨?_, hall⟩
  rw [get_eq] at h
  cases hany : (q.nodes (storageFor s index).tree).anyM
      (visitStep q.past (collect q.types q.nameFilter unlimited)) [] with
  | error p =>
      rw [hany] at h
      cases h
  | ok r =>
      obtain ⟨r', hr'⟩ := anyM_of_le q hle hany
      rcases get_page q s index limit with hpage | ⟨herror, _⟩
      · exact hpage
      · rw [get_eq, hr'] at herror
        cases herror

end larger

/-- How a limited result may differ from the unlimited one: it is cut off
behind the limit, but not within a group of equal timestamps, and goes beyond
it only to finish one. -/
structure KeepsGroups (limit : Nat) (unlimited limited : List Envelope) : Prop where
  isPrefix : limited <+: unlimited
  enough : min limit unlimited.length ≤ limited.length
  overrun : ∀ nth, limited[limit - 1]? = some nth →
    ∀ e ∈ limited.drop limit, e.timestamp = nth.timestamp
  unbroken : ∀ last, limited.getLast? = some last →
    ∀ e ∈ unlimited.drop limited.length, e.timestamp ≠ last.timestamp

theorem KeepsGroups.refl (limit : Nat) {es : List Envelope} (h : es.length < limit) :
    KeepsGroups limit es es where
  isPrefix := List.prefix_rfl
  enough := Nat.min_le_right _ _
  overrun nth hnth := by
    rw [List.drop_eq_nil_of_le h.le]
    exact fun e he => (by cases he)
  unbroken last _ := by
    rw [List.drop_length]
    exact fun e he => (by cases he)

theorem keepsGroups_iff {limit : Nat} {before within rest : List Envelope} {nth : Envelope}
    (hbefore : before.length + 1 = limit) :
    KeepsGroups limit (before ++ nth :: within ++ rest) (before ++ nth :: within) ↔
      (∀ e ∈ within, e.timestamp = nth.timestamp) ∧ ∀ e ∈ rest, e.timestamp ≠ nth.timestamp := by
  have hnth : (before ++ nth :: within)[limit - 1]? = some nth := by
    rw [← hbefore]
    simp
  have hwithin : (before ++ nth :: within).drop limit = within := by
    rw [← hbefore]
    simp
  have hrest : (before ++ nth :: within ++ rest).drop (before ++ nth :: within).length = rest :=
    List.drop_left
  have hlast : ∀ last, (before ++ nth :: within).getLast? = some last → last ∈ nth :: within := by
    intro last h
    rw [List.getLast?_append_of_ne_nil _ (List.cons_ne_nil _ _)] at h
    exact List.mem_of_getLast? h
  constructor
  · intro h
    have hsame : ∀ e ∈ within, e.timestamp = nth.timestamp := by
      intro e he
      apply h.overrun nth hnth
      rwa [hwithin]
    refine ⟨hsame, fun e he => ?_⟩
    obtain ⟨last, hl⟩ : ∃ last, (before ++ nth :: within).getLast? = some last :=
      ⟨_, List.getLast?_eq_some_getLast (List.append_ne_nil_of_right_ne_nil before
        (List.cons_ne_nil nth within))⟩
    have hne := h.unbroken last hl e (by rwa [hrest])
    rcases List.mem_cons.mp (hlast last hl) with rfl | hmem
    · exact hne
    · rwa [hsame last hmem] at hne
  · rintro ⟨hsame, hother⟩
    refine ⟨List.prefix_append _ _, ?_, ?_, ?_⟩
    · refine (Nat.min_le_left _ _).trans ?_
      rw [List.length_append, List.length_cons]
      omega
    · intro nth' h e he
      rw [hnth] at h
      cases h
      rw [hwithin] at he
      exact hsame e he
    · intro last h e he
      rw [hrest] at he
      rcases List.mem_cons.mp (hlast last h) with rfl | hmem
      · exact hother e he
      · rw [hsame last hmem]
        exact hother e he

def walked (q : Query) (tree : Tree Int64 Envelope) : List Visit := through q.leaves (q.nodes tree)

/-- From the node `v` on, `isNodeAFudgeSequenceMember` tells the group of `v`
from the rest: a node at which the traversal may halt has nothing of the group
behind it, and one that is shown and not of the group has such a node before
it. -/
structure TellsGroup (q : Query) (v : Visit) (after : List Visit) : Prop where
  whole : ∀ xs w ys, v :: after = xs ++ w :: ys → q.halts w = true →
    ∀ u ∈ ys, (q.shown u).isSome = true → u.envelope.timestamp ≠ v.envelope.timestamp
  ended : ∀ xs u ys, after = xs ++ u :: ys → (q.shown u).isSome = true →
    u.envelope.timestamp ≠ v.envelope.timestamp → ∃ w ∈ v :: xs, q.halts w = true

/-- The guess is right at the node that fills the limit, if there is one. -/
def TellsGroups (q : Query) (limit : Nat) (vs : List Visit) : Prop :=
  ∀ before v after, vs = before ++ v :: after → (q.shown v).isSome = true →
    (before.filterMap q.shown).length + 1 = limit → TellsGroup q v after

theorem mem_filterMap_shown {q : Query} {vs : List Visit} {P : Int64 → Prop} :
    (∀ e ∈ vs.filterMap q.shown, P e.timestamp) ↔
      ∀ u ∈ vs, (q.shown u).isSome = true → P u.envelope.timestamp := by
  constructor
  · intro h u hu hshown
    obtain ⟨e, he⟩ := Option.isSome_iff_exists.mp hshown
    rw [← (shown_spec he).1.timestamp]
    exact h e (List.mem_filterMap.mpr ⟨u, hu, he⟩)
  · intro h e he
    obtain ⟨u, hu, hshown⟩ := List.mem_filterMap.mp he
    rw [(shown_spec hshown).1.timestamp]
    exact h u hu (by rw [hshown]; rfl)

theorem tellsGroup_iff {q : Query} {v : Visit} {after taken rest : List Visit}
    (htaken : through q.halts (v :: after) = v :: taken) (hafter : after = taken ++ rest) :
    TellsGroup q v after ↔
      (∀ u ∈ taken, (q.shown u).isSome = true → u.envelope.timestamp = v.envelope.timestamp) ∧
        ∀ u ∈ rest, (q.shown u).isSome = true → u.envelope.timestamp ≠ v.envelope.timestamp := by
  constructor
  · intro h
    constructor
    · intro u hu hshown
      by_contra hne
      obtain ⟨xs, ys, rfl⟩ := List.append_of_mem hu
      obtain ⟨w, hw, hhalts⟩ := h.ended xs u (ys ++ rest) (by rw [hafter]; simp) hshown hne
      have hsplit : through q.halts (v :: after) = (v :: xs) ++ u :: ys := htaken
      rw [through_before hsplit w hw] at hhalts
      cases hhalts
    · intro u hu hshown
      have hsplit : v :: after = through q.halts (v :: after) ++ rest := by
        rw [htaken, hafter]
        rfl
      obtain ⟨ys, w, hlast, hhalts⟩ := through_last hsplit (List.ne_nil_of_mem hu)
      refine h.whole ys w rest ?_ hhalts u hu hshown
      rw [hafter, ← List.cons_append, ← htaken, hlast, List.append_assoc]
      rfl
  · rintro ⟨hsame, hother⟩
    refine ⟨?_, ?_⟩
    · intro xs w ys hsplit hhalts u hu hshown
      have hrest : xs ++ w :: ys = through q.halts (xs ++ w :: ys) ++ rest := by
        rw [← hsplit, htaken, hafter]
        rfl
      obtain ⟨zs, rfl⟩ := through_rest hrest hhalts
      exact hother u (List.mem_append_right _ hu) hshown
    · intro xs u ys hsplit hshown hne
      by_contra hnone
      push Not at hnone
      have hpass : ∀ w ∈ v :: xs, q.halts w = false :=
        fun w hw => Bool.eq_false_iff.mpr (hnone w hw)
      obtain ⟨zs, hzs⟩ := through_cons q.halts u ys
      rw [hsplit, ← List.cons_append, through_append hpass, hzs] at htaken
      have hmem : u ∈ taken := by
        rw [← (List.cons.inj htaken).2]
        simp
      exact hne (hsame u hmem hshown)

theorem keepsGroups_at {q : Query} {limit : Nat} {vs before after : List Visit} {v : Visit}
    (hsplit : through q.leaves vs = before ++ v :: after) (hshown : (q.shown v).isSome = true)
    (hbefore : (before.filterMap q.shown).length + 1 = limit) :
    KeepsGroups limit ((through q.leaves vs).filterMap q.shown) (q.page limit [] vs) ↔
      TellsGroup q v after := by
  obtain ⟨nth, hnth⟩ := Option.isSome_iff_exists.mp hshown
  obtain ⟨taken, htaken⟩ := through_cons q.halts v after
  obtain ⟨rest, hrest⟩ := through_initial q.halts (v :: after)
  rw [htaken, List.cons_append] at hrest
  have hafter : after = taken ++ rest := (List.cons.inj hrest).2.symm
  have hpage : q.page limit [] vs = before.filterMap q.shown ++ nth :: taken.filterMap q.shown := by
    have hlast : limit ≤ ((before.filterMap q.shown ++ (q.shown v).toList).length : Int) := by
      rw [hnth, List.length_append, Option.toList_some, List.length_singleton]
      omega
    rw [← page_through, hsplit, page_append q (through_before hsplit)
      (by rw [List.nil_append]; omega), List.nil_append, page_filled q v hlast, htaken,
      List.filterMap_cons_some hnth]
  have hall : (through q.leaves vs).filterMap q.shown =
      before.filterMap q.shown ++ nth :: taken.filterMap q.shown ++ rest.filterMap q.shown := by
    rw [hsplit, hafter, List.filterMap_append, List.filterMap_cons_some hnth, List.filterMap_append,
      List.append_assoc, List.cons_append]
  rw [hpage, hall, keepsGroups_iff hbefore, tellsGroup_iff htaken hafter,
    (shown_spec hnth).1.timestamp]
  exact and_congr (mem_filterMap_shown (P := fun t => t = v.envelope.timestamp))
    (mem_filterMap_shown (P := fun t => t ≠ v.envelope.timestamp))

theorem page_keepsGroups (q : Query) {limit : Nat} (hlimit : 1 ≤ limit) (vs : List Visit) :
    KeepsGroups limit ((through q.leaves vs).filterMap q.shown) (q.page limit [] vs) ↔
      TellsGroups q limit (through q.leaves vs) := by
  by_cases hlength : limit ≤ ((through q.leaves vs).filterMap q.shown).length
  · obtain ⟨before, v, after, hsplit, hshown, hbefore⟩ := exists_nth hlimit hlength
    constructor
    · intro h before' v' after' hsplit' hshown' hbefore'
      exact (keepsGroups_at hsplit' hshown' hbefore').mp h
    · intro h
      exact (keepsGroups_at hsplit hshown hbefore).mpr (h before v after hsplit hshown hbefore)
  · have hfew : ((through q.leaves vs).filterMap q.shown).length < limit := not_le.mp hlength
    have hpage : q.page limit [] vs = (through q.leaves vs).filterMap q.shown := by
      rw [← page_through, page_unlimited q (by rw [List.nil_append]; omega), through_idem,
        List.nil_append]
    rw [hpage]
    refine iff_of_true (KeepsGroups.refl limit hfew) ?_
    intro before v after hsplit hshown hbefore
    obtain ⟨nth, hnth⟩ := Option.isSome_iff_exists.mp hshown
    rw [hsplit, List.filterMap_append, List.filterMap_cons_some hnth, List.length_append,
      List.length_cons] at hfew
    omega

/-- A limited `Get` against one whose limit is above everything there is: the
groups are kept exactly where the guess tells them apart. -/
theorem get_keepsGroups_iff (s : Store) (index : String) (q : Query) (limit : Nat)
    (hlimit : 1 ≤ limit) (unlimited : Int) (hstored : ((stored s index).length : Int) < unlimited)
    (hle : (limit : Int) ≤ unlimited) (all : List Envelope)
    (hall : get s index q.start q.stop q.types q.nameFilter unlimited q.descending = .ok all) :
    ∃ limited, get s index q.start q.stop q.types q.nameFilter limit q.descending = .ok limited ∧
      (KeepsGroups limit all limited ↔ TellsGroups q limit
        (walked q (storageFor s index).tree)) := by
  obtain ⟨hget, hpage⟩ := get_of_le q hle hall
  refine ⟨_, hget, ?_⟩
  have hnodes : ((q.nodes (storageFor s index).tree).filterMap q.shown).length ≤
      (stored s index).length := by
    have hlen := (nodes_sublist q (storageFor s index).tree).length_le
    rw [List.length_map] at hlen
    refine (List.length_filterMap_le _ _).trans (hlen.trans ?_)
    rw [stored, List.length_map]
    cases q.descending <;> simp
  rw [hpage, page_unlimited q (by rw [List.nil_append]; omega), List.nil_append]
  exact page_keepsGroups q hlimit _

theorem tellsGroups_of_unfudged (q : Query) (limit : Nat) {tree : Tree Int64 Envelope}
    (ht : Unfudged tree) :
    TellsGroups q limit (walked q tree) := by
  intro before v after hsplit hshown _
  have hsub : (before ++ v :: after).Sublist (visits (firstSide q.descending) tree.root) := by
    rw [← hsplit]
    exact (through_initial _ _).sublist.trans (reached_sublist _ _ _)
  have hvisits : ((visits (firstSide q.descending) tree.root).map entry).Pairwise fun p p' =>
      p.2.timestamp ≠ p'.2.timestamp := by
    rw [map_entry_visits]
    cases q.descending with
    | false => exact ht.timeOrdered.imp fun h => h.ne
    | true => exact List.pairwise_reverse.mpr (ht.timeOrdered.imp fun h => h.ne')
  have hdistinct := List.pairwise_cons.mp
    (List.pairwise_append.mp ((List.pairwise_map.mp hvisits).sublist hsub)).2.1
  have hhalts : q.halts v = true := by
    have hmember := member_of_unfudged ht (hsub.subset (List.mem_append_right _ List.mem_cons_self))
    obtain ⟨e, he⟩ := Option.isSome_iff_exists.mp hshown
    rw [Query.halts, hmember, (filterByName_of_shown he).1, Option.isSome_some, Bool.or_true]
    rfl
  refine ⟨?_, fun xs u ys _ _ _ => ⟨v, List.mem_cons_self, hhalts⟩⟩
  intro xs w ys hafter _ u hu _
  have hmem : u ∈ after := by
    cases xs with
    | nil =>
        rw [(List.cons.inj hafter).2]
        exact hu
    | cons x xs =>
        rw [(List.cons.inj hafter).2]
        exact List.mem_append_right _ (List.mem_cons_of_mem _ hu)
  exact (hdistinct.1 u hmem).symm

/-- A burst of two, of which the limit covers one: the guess tells the group,
as the second one is the right child of the first. -/
theorem get_keepsGroups_iff_burst :
    ∃ s, run exec (newStore 10 1) [.put (bare 0) "a", .put (bare 0) "a"] = .ok s ∧
      ∃ limited, get s "a" 0 9 none none 1 false = .ok limited ∧
        (KeepsGroups 1 [bare 0, bare 0] limited ↔
          TellsGroups ⟨0, 9, none, none, false⟩ 1
            (walked ⟨0, 9, none, none, false⟩ (storageFor s "a").tree)) := by
  obtain ⟨s, hrun, hlength, hall⟩ : ∃ s, run exec
      (newStore 10 1) [.put (bare 0) "a", .put (bare 0) "a"] = .ok s ∧
      (stored s "a").length = 2 ∧ get s "a" 0 9 none none 10 false = .ok [bare 0, bare 0] :=
    ⟨_, rfl, by decide, by decide⟩
  refine ⟨s, hrun, ?_⟩
  exact get_keepsGroups_iff s "a" ⟨0, 9, none, none, false⟩ 1 le_rfl 10
    (by rw [hlength]; decide) (by decide) [bare 0, bare 0] hall

/-- Timestamps 0, 0, 5 make a tree with the second of the burst at the root. A
limit of one breaks the burst up, as the first one has no child; a limit of
two runs over into the next group, as the second one always passes for a
member. -/
theorem get_breaks_groups :
    ∃ s, run exec (newStore 10 1) [.put (bare 0) "a", .put (bare 0) "a",
      .put (bare 5) "a"] = .ok s ∧
      get s "a" 0 9 none none 10 false = .ok [bare 0, bare 0, bare 5] ∧
      get s "a" 0 9 none none 1 false = .ok [bare 0] ∧
      get s "a" 0 9 none none 2 false = .ok [bare 0, bare 0, bare 5] ∧
      ¬ KeepsGroups 1 [bare 0, bare 0, bare 5] [bare 0] ∧
      ¬ KeepsGroups 2 [bare 0, bare 0, bare 5] [bare 0, bare 0, bare 5] := by
  refine ⟨_, rfl, by decide, by decide, by decide, ?_, ?_⟩
  · intro h
    exact h.unbroken (bare 0) rfl (bare 0) (by decide) rfl
  · intro h
    exact absurd (h.overrun (bare 0) rfl (bare 5) (by decide)) (by decide)

end LogCache.GroupedLimit
