import LogCache.ReadPath

namespace LogCache.WalkFailures

open Envelopes EnvelopeStore ReadPath

/-- `WalkingDataReader.Read` over any reader, with a context that is never
cancelled: `ctx.Err()` is nil, so that the end of the walk is a success. -/
def dataReaderRead (reader : Nat → ReadRequest → ReadAnswer) (clock : Nat → Int64) (fuel : Nat)
    (req : ReadRequest) :
    Option (Except Panic (List Envelope)) :=
  walk ⟨some req.endTime, some req.limit, req.envelopeTypes, "", 2⟩ reader clock req.sourceId fuel 0
    ⟨req.startTime, false, ⟨5, 0, true⟩, []⟩

abbrev Answers := Nat → Except String (List Envelope)

section turns

variable (answers : Answers) (clock : Nat → Int64) (req : ReadRequest)

def Failed (i : Nat) : Prop := ∃ err, answers i = .error err

def pruned (i : Nat) (es : List Envelope) : List Envelope :=
  dropBeyond (some req.endTime) (delayFunc 2 (clock i) es)

def Exhausted (i : Nat) : Prop :=
  ∃ es, answers i = .ok es ∧
    ((pruned clock req i es).getLast? = none ∨
      ∃ last, (pruned clock req i es).getLast? = some last ∧ req.endTime ≤ last.timestamp + 1)

def GivesUp (i : Nat) : Prop := ∃ n, i = n + 4 ∧ ∀ k < 5, Failed answers (n + k)

/-- The walk is still going on before turn `i`: its backoff has counted the
failed turns since the last page. -/
structure Going (i : Nat) (st : WalkState) : Prop where
  received : st.receivedEmpty = false
  backoff : ∃ count : Nat, st.backoff = ⟨5, count, true⟩ ∧ count < 5 ∧ count ≤ i ∧
    (∀ k < count, Failed answers (i - 1 - k)) ∧ (count < i → ¬ Failed answers (i - 1 - count))

end turns

section walk

variable {answers : Answers} {clock : Nat → Int64} {req : ReadRequest} {i : Nat} {st : WalkState}

def configOf (req : ReadRequest) : WalkConfig :=
  ⟨some req.endTime, some req.limit, req.envelopeTypes, "", 2⟩

theorem going_start : Going answers 0 ⟨req.startTime, false, ⟨5, 0, true⟩, []⟩ where
  received := rfl
  backoff := ⟨0, rfl, by omega, Nat.le_refl 0, fun k hk => absurd hk (Nat.not_lt_zero
    k), fun h => absurd h (Nat.lt_irrefl 0)⟩

theorem failed_since {count : Nat} (h : Failed answers i)
    (hfailed : ∀ k < count, Failed answers (i - 1 - k)) :
    ∀ k < count + 1, Failed answers (i - k) := by
  intro k hk
  cases k with
  | zero => exact h
  | succ k =>
      rw [Nat.add_comm k 1, ← Nat.sub_sub]
      exact hfailed k (by omega)

theorem walkStep_failed (hst : Going answers i st) {err : String} (herr : answers i = .error err) :
    ((walkStep (configOf req) (clock i) (answers i) st).2 = true →
        ¬ GivesUp answers i ∧ Going answers (i + 1)
          (walkStep (configOf req) (clock i) (answers i) st).1) ∧
      ((walkStep (configOf req) (clock i) (answers i) st).2 = false → GivesUp answers i) := by
  obtain ⟨count, hbackoff, hlt, hle, hfailed, hbefore⟩ := hst.backoff
  have hall := failed_since ⟨err, herr⟩ hfailed
  rw [herr, walkStep]
  dsimp only
  rw [hbackoff, RetryBackoff.onErr]
  dsimp only
  constructor
  · intro hmore
    have hmore : count + 1 < 5 := by
      have := of_decide_eq_true hmore
      omega
    refine ⟨?_, ⟨hst.received, count + 1, by push_cast; rfl, hmore, by omega, ?_, ?_⟩⟩
    · rintro ⟨n, hn, hfive⟩
      have := hfive (3 - count) (by omega)
      refine hbefore (by omega) ?_
      rwa [show n + (3 - count) = i - 1 - count from by omega] at this
    · intro k hk
      rw [Nat.add_sub_cancel]
      exact hall k hk
    · intro hk
      rw [show i + 1 - 1 - (count + 1) = i - 1 - count from by omega]
      exact hbefore (by omega)
  · intro hdone
    have hcount : count = 4 := by
      have := of_decide_eq_false hdone
      omega
    refine ⟨i - 4, by omega, fun k hk => ?_⟩
    have := hall (4 - k) (by omega)
    rwa [show i - (4 - k) = i - 4 + k from by omega] at this

theorem not_exhausted {es : List Envelope} {last : Envelope} (hes : answers i = .ok es)
    (hlast : (pruned clock req i es).getLast? = some last)
    (hend : ¬ req.endTime ≤ last.timestamp + 1) :
    ¬ Exhausted answers clock req i := by
  rintro ⟨es', hes', hexhausted⟩
  rw [← Except.ok.inj (hes.symm.trans hes'), hlast] at hexhausted
  rcases hexhausted with hnone | ⟨last', hlast', hend'⟩
  · cases hnone
  · exact hend (Option.some.inj hlast' ▸ hend')

theorem going_after_page {es : List Envelope} (hes : answers i = .ok es)
    (hreceived : st.receivedEmpty = false) (hbackoff : st.backoff = ⟨5, 0, true⟩) :
    Going answers (i + 1) st where
  received := hreceived
  backoff := by
    refine ⟨0, hbackoff, by omega, by omega, fun k hk => absurd hk (Nat.not_lt_zero k), fun _ => ?_⟩
    rintro ⟨err, herr⟩
    rw [Nat.add_sub_cancel, Nat.sub_zero, hes] at herr
    cases herr

theorem walkStep_going {count : Int} (hreceived : st.receivedEmpty = false)
    (hbackoff : st.backoff = ⟨5, count, true⟩) {es : List Envelope} :
    walkStep (configOf req) (clock i) (.ok es) st =
      match (pruned clock req i es).getLast? with
      | none => ({ st with receivedEmpty := true }, false)
      | some last =>
          if req.endTime ≤ last.timestamp + 1 then
            ({ st with backoff := ⟨5, 0, true⟩, visited := st.visited ++ pruned clock req i es },
              false)
          else
            ({ st with start := last.timestamp + 1, backoff := ⟨5, 0, true⟩,
                       visited := st.visited ++ pruned clock req i es }, true) := by
  have hstep := @walkStep_ok (configOf req) req.endTime st rfl hreceived (clock i) es
  rw [hbackoff] at hstep ⊢
  exact hstep

theorem walkStep_page (hst : Going answers i st) {es : List Envelope} (hes : answers i = .ok es) :
    ((walkStep (configOf req) (clock i) (answers i) st).2 = true →
        ¬ Exhausted answers clock req i ∧ Going answers (i + 1)
          (walkStep (configOf req) (clock i) (answers i) st).1) ∧
      ((walkStep (configOf req) (clock i) (answers i) st).2 = false →
        Exhausted answers clock req i) := by
  obtain ⟨count, hbackoff, -⟩ := hst.backoff
  rw [hes, walkStep_going hst.received hbackoff]
  cases hlast : (pruned clock req i es).getLast? with
  | none => exact ⟨fun h => absurd h Bool.false_ne_true, fun _ => ⟨es, hes, .inl hlast⟩⟩
  | some last =>
      dsimp only
      by_cases hend : req.endTime ≤ last.timestamp + 1
      · rw [if_pos hend]
        exact ⟨fun h => absurd h Bool.false_ne_true, fun _ => ⟨es, hes, .inr ⟨last, hlast, hend⟩⟩⟩
      · rw [if_neg hend]
        exact ⟨fun _ => ⟨not_exhausted hes hlast hend, going_after_page hes hst.received rfl⟩,
          fun h => absurd h.symm Bool.false_ne_true⟩

def Stops (answers : Answers) (clock : Nat → Int64) (req : ReadRequest) (i : Nat) : Prop :=
  Exhausted answers clock req i ∨ GivesUp answers i

theorem walkStep_iff (hst : Going answers i st) :
    ((walkStep (configOf req) (clock i) (answers i) st).2 = true →
        ¬ Stops answers clock req i ∧ Going answers (i + 1)
          (walkStep (configOf req) (clock i) (answers i) st).1) ∧
      ((walkStep (configOf req) (clock i) (answers i) st).2 = false →
        Stops answers clock req i) := by
  cases hanswer : answers i with
  | error err =>
      obtain ⟨hmore, hdone⟩ := @walkStep_failed answers clock req i st hst err hanswer
      have hpage : ¬ Exhausted answers clock req i := by
        rintro ⟨es, hes, -⟩
        rw [hanswer] at hes
        cases hes
      rw [hanswer] at hmore hdone
      exact ⟨fun h => ⟨not_or.mpr ⟨hpage, (hmore h).1⟩, (hmore h).2⟩, fun h => .inr (hdone h)⟩
  | ok es =>
      obtain ⟨hmore, hdone⟩ := @walkStep_page answers clock req i st hst es hanswer
      have hfailed : ¬ GivesUp answers i := by
        rintro ⟨n, rfl, hfive⟩
        obtain ⟨err, herr⟩ := hfive 4 (by omega)
        rw [hanswer] at herr
        cases herr
      rw [hanswer] at hmore hdone
      exact ⟨fun h => ⟨not_or.mpr ⟨(hmore h).1, hfailed⟩, (hmore h).2⟩, fun h => .inl (hdone h)⟩

theorem walk_eq_none_iff (fuel : Nat) (hst : Going answers i st) :
    walk (configOf req) (fun i _ => .ok (answers i)) clock req.sourceId fuel i st = none ↔
      ∀ j, i ≤ j → j < i + fuel → ¬ Stops answers clock req j := by
  induction fuel generalizing i st with
  | zero => exact iff_of_true rfl fun j hle hlt => absurd hlt (by omega)
  | succ fuel ih =>
      obtain ⟨hmore, hdone⟩ := @walkStep_iff answers clock req i st hst
      rw [walk]
      dsimp only
      cases hstep : walkStep (configOf req) (clock i) (answers i) st with
      | mk st' more =>
          rw [hstep] at hmore hdone
          cases more with
          | true =>
              obtain ⟨hnot, hgoing⟩ := hmore rfl
              dsimp only
              rw [ih hgoing]
              constructor
              · intro h j hle hlt
                rcases Nat.eq_or_lt_of_le hle with rfl | hlt'
                · exact hnot
                · exact h j hlt' (by omega)
              · exact fun h j hle hlt => h j (by omega) (by omega)
          | false =>
              exact iff_of_false (fun h => nomatch h)
                fun h => h i (Nat.le_refl i) (by omega) (hdone rfl)

theorem walk_ok (fuel : Nat) (i : Nat) (st : WalkState)
    (h : walk (configOf req) (fun i _ => .ok (answers i)) clock req.sourceId fuel i st ≠ none) :
    ∃ es, walk (configOf req) (fun i _ => .ok (answers i)) clock req.sourceId fuel i st =
      some (.ok es) := by
  induction fuel generalizing i st with
  | zero => exact absurd rfl h
  | succ fuel ih =>
      rw [walk] at h ⊢
      dsimp only at h ⊢
      cases hstep : walkStep (configOf req) (clock i) (answers i) st with
      | mk st' more =>
          rw [hstep] at h
          cases more with
          | true => exact ih (i + 1) st' h
          | false => exact ⟨_, rfl⟩

end walk

section read

variable {answers : Answers} {clock : Nat → Int64} {req : ReadRequest}

def ReturnsIn (answers : Answers) (clock : Nat → Int64) (req : ReadRequest) (i : Nat) : Prop :=
  dataReaderRead (fun i _ => .ok (answers i)) clock i req = none ∧
    ∃ es, dataReaderRead (fun i _ => .ok (answers i)) clock (i + 1) req = some (.ok es)

theorem returnsIn_iff (i : Nat) :
    ReturnsIn answers clock req i ↔ Stops answers clock req i ∧
      ∀ j < i, ¬ Stops answers clock req j := by
  have hnone : ∀ fuel, dataReaderRead (fun i _ => .ok (answers i)) clock fuel req = none ↔
      ∀ j < fuel, ¬ Stops answers clock req j := by
    intro fuel
    have hwalk := @walk_eq_none_iff answers clock req 0 _ fuel (@going_start answers req)
    rw [Nat.zero_add] at hwalk
    exact hwalk.trans ⟨fun h j => h j (Nat.zero_le j), fun h j _ => h j⟩
  rw [ReturnsIn, hnone]
  constructor
  · rintro ⟨hbefore, es, hes⟩
    refine ⟨?_, hbefore⟩
    by_contra hnot
    have hgoing : dataReaderRead (fun i _ => .ok (answers i)) clock (i + 1) req = none := by
      refine (hnone (i + 1)).mpr fun j hj => ?_
      rcases Nat.lt_succ_iff_lt_or_eq.mp hj with hlt | rfl
      · exact hbefore j hlt
      · exact hnot
    rw [hgoing] at hes
    cases hes
  · rintro ⟨hstops, hbefore⟩
    refine ⟨hbefore, walk_ok (i + 1) 0 _ fun h => ?_⟩
    exact (hnone (i + 1)).mp h i (Nat.lt_succ_self i) hstops

/-- Every success of `Read` has seen the end of the range, exactly if no five
reads in a row fail before the end of the range is found. -/
theorem success_means_exhausted_iff (answers : Answers) (clock : Nat → Int64) (req : ReadRequest) :
    (∀ i, ReturnsIn answers clock req i → Exhausted answers clock req i) ↔
      ∀ n, (∀ k < 5, Failed answers (n + k)) → ∃ m < n, Exhausted answers clock req m := by
  classical
  constructor
  · intro h n hfive
    have hstops : ∃ j, Stops answers clock req j := ⟨n + 4, .inr ⟨n, rfl, hfive⟩⟩
    have hfirst := Nat.find_spec hstops
    have hend := h (Nat.find hstops) ((returnsIn_iff _).mpr
        ⟨hfirst, fun j hj => Nat.find_min hstops hj⟩)
    refine ⟨Nat.find hstops, ?_, hend⟩
    -- a turn from the `n`-th to the fifth after it has no page
    by_contra hle
    have hmin : Nat.find hstops ≤ n + 4 := Nat.find_min' hstops (.inr ⟨n, rfl, hfive⟩)
    obtain ⟨err, herr⟩ := hfive (Nat.find hstops - n) (by omega)
    obtain ⟨es, hes, -⟩ := hend
    rw [show n + (Nat.find hstops - n) = Nat.find hstops from by omega, hes] at herr
    cases herr
  · intro h i hreturns
    obtain ⟨hstops, hbefore⟩ := (returnsIn_iff i).mp hreturns
    rcases hstops with hend | ⟨n, rfl, hfive⟩
    · exact hend
    · obtain ⟨m, hm, hend⟩ := h n hfive
      exact absurd (.inl hend) (hbefore m (by omega))

def lost : Answers
  | 0 => .ok [bare 1]
  | _ => .error "unavailable"

def wholeRange : ReadRequest where
  sourceId := "a"
  startTime := 0
  endTime := 1000
  limit := 0
  envelopeTypes := []
  descending := false
  nameFilter := ""

theorem lost_pages_are_a_success :
    ReturnsIn lost (fun _ => 2000) wholeRange 5 ∧
      dataReaderRead (fun i _ => .ok (lost i)) (fun _ => 2000) 6 wholeRange = some (.ok [bare 1]) ∧
      ¬ Exhausted lost (fun _ => 2000) wholeRange 5 := by
  have hpage : dataReaderRead (fun i _ => .ok (lost i)) (fun _ => 2000) 6 wholeRange =
      some (.ok [bare 1]) := by
    decide +kernel
  refine ⟨⟨by decide +kernel, _, hpage⟩, hpage, ?_⟩
  rintro ⟨es, hes, -⟩
  cases hes

end read

end LogCache.WalkFailures
