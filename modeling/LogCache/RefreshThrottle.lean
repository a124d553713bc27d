import LogCache.KeyRefresh
import LogCache.Runs

namespace LogCache.RefreshThrottle

open Runs UaaClient KeyRefresh

/-- Where a call of `RefreshTokenKeys` is, up to the request: it has loaded the
last query time, it has passed the check of the throttle, or it has come past
the compare-and-swap, at the given time. -/
inductive Call
  | loaded (lastQueryTime : Int64)
  | allowed (lastQueryTime : Int64)
  | swapped (time : Int64)
  | done
deriving DecidableEq

/-- The fields that concurrent calls share, the clock in nanoseconds, and the
swap times of the requests that were sent. -/
structure Sys where
  minimumRefreshInterval : Int64
  lastQueryTime : Int64
  now : Int64
  calls : List Call
  requests : List Int64

inductive Event
  | tick (now : Int64)
  | load
  | check (i : Nat)
  | swap (i : Nat)
  | request (i : Nat)

inductive Stop
  | disabled

def initial (minimumRefreshInterval now : Int64) : Sys := ⟨minimumRefreshInterval, 0, now, [], []⟩

/-- The outcome of the compare-and-swap is not looked at: the call goes on to
its request either way. -/
def step (s : Sys) : Event → Except Stop Sys
  | .tick now => if s.now ≤ now then .ok { s with now := now } else .error .disabled
  | .load => .ok { s with calls := s.calls ++ [.loaded s.lastQueryTime] }
  | .check i =>
      match s.calls[i]? with
      | some (.loaded lastQueryTime) =>
          if s.now.toInt < lastQueryTime.toInt + s.minimumRefreshInterval.toInt then
            .ok { s with calls := s.calls.set i .done }
          else .ok { s with calls := s.calls.set i (.allowed lastQueryTime) }
      | _ => .error .disabled
  | .swap i =>
      match s.calls[i]? with
      | some (.allowed lastQueryTime) =>
          .ok { s with lastQueryTime := if s.lastQueryTime = lastQueryTime then s.now
                         else s.lastQueryTime,
                       calls := s.calls.set i (.swapped s.now) }
      | _ => .error .disabled
  | .request i =>
      match s.calls[i]? with
      | some (.swapped time) =>
          .ok { s with calls := s.calls.set i .done, requests := s.requests ++ [time] }
      | _ => .error .disabled

def inFlight (s : Sys) : Nat := s.calls.countP (· ≠ .done)

/-- A call begins only while fewer than `n` others have not sent their request. -/
def AtMost (n : Nat) (s : Sys) : Event → Prop
  | .load => inFlight s < n
  | _ => True

def Spaced (s : Sys) : Prop :=
  s.requests.Pairwise fun time time' => time.toInt + s.minimumRefreshInterval.toInt ≤ time'.toInt ∨
    time'.toInt + s.minimumRefreshInterval.toInt ≤ time.toInt

def Throttles (minimumRefreshInterval : Int64) (n : Nat) : Prop :=
  ∀ now events s, Along step (AtMost n) (initial minimumRefreshInterval now) events →
    run step (initial minimumRefreshInterval now) events = .ok s → Spaced s

section steps

variable {s s' : Sys} {i : Nat}

theorem check_ok (h : step s (.check i) = .ok s') :
    ∃ lastQueryTime, s.calls[i]? = some (.loaded lastQueryTime) ∧
      (s' = { s with calls := s.calls.set i .done } ∨
        lastQueryTime.toInt + s.minimumRefreshInterval.toInt ≤ s.now.toInt ∧
          s' = { s with calls := s.calls.set i (.allowed lastQueryTime) }) := by
  rw [step] at h
  split at h
  · rename_i lastQueryTime hcall
    refine ⟨lastQueryTime, hcall, ?_⟩
    split_ifs at h with hearly
    · exact .inl (Except.ok.inj h).symm
    · exact .inr ⟨not_lt.mp hearly, (Except.ok.inj h).symm⟩
  · cases h

theorem swap_ok (h : step s (.swap i) = .ok s') :
    ∃ lastQueryTime, s.calls[i]? = some (.allowed lastQueryTime) ∧
      s' = { s with lastQueryTime := if s.lastQueryTime = lastQueryTime then s.now
                      else s.lastQueryTime,
                    calls := s.calls.set i (.swapped s.now) } := by
  rw [step] at h
  split at h
  · rename_i lastQueryTime hcall
    exact ⟨lastQueryTime, hcall, (Except.ok.inj h).symm⟩
  · cases h

theorem request_ok (h : step s (.request i) = .ok s') :
    ∃ time, s.calls[i]? = some (.swapped time) ∧
      s' = { s with calls := s.calls.set i .done, requests := s.requests ++ [time] } := by
  rw [step] at h
  split at h
  · rename_i time hcall
    exact ⟨time, hcall, (Except.ok.inj h).symm⟩
  · cases h

theorem tick_ok {now : Int64} (h : step s (.tick now) = .ok s') :
    s.now ≤ now ∧ s' = { s with now := now } := by
  rw [step] at h
  split_ifs at h with hle
  exact ⟨hle, (Except.ok.inj h).symm⟩

theorem step_interval {event : Event} (h : step s event = .ok s') :
    s'.minimumRefreshInterval = s.minimumRefreshInterval := by
  cases event with
  | tick now => obtain ⟨-, rfl⟩ := tick_ok h; rfl
  | load => cases h; rfl
  | check i => obtain ⟨_, -, rfl | ⟨-, rfl⟩⟩ := check_ok h <;> rfl
  | swap i => obtain ⟨_, -, rfl⟩ := swap_ok h; rfl
  | request i => obtain ⟨_, -, rfl⟩ := request_ok h; rfl

end steps

section alone

variable {calls : List Call} {c c' : Call} {i : Nat}

def Alone (calls : List Call) : Prop :=
  ∀ (i j : Nat) (c d : Call), calls[i]? = some c → calls[j]? = some d → c ≠ .done →
    d ≠ .done → i = j

theorem getElem?_set_alone (h : Alone calls) (hi : calls[i]? = some c) (hc : c ≠ .done)
    {j : Nat} {d : Call} (hj : (calls.set i c')[j]? = some d) : j = i ∧ d = c' ∨ d = .done := by
  by_cases hji : j = i
  · subst hji
    rw [List.getElem?_set_self (List.getElem?_eq_some_iff.mp hi).1] at hj
    exact .inl ⟨rfl, (Option.some.inj hj).symm⟩
  · rw [List.getElem?_set_ne (Ne.symm hji)] at hj
    by_contra hd
    exact hji (h j i d c hj hi (not_or.mp hd).2 hc)

theorem mem_set_alone (h : Alone calls) (hi : calls[i]? = some c) (hc : c ≠ .done) {d : Call}
    (hd : d ∈ calls.set i c') : d = c' ∨ d = .done := by
  obtain ⟨j, hj⟩ := List.mem_iff_getElem?.mp hd
  exact (getElem?_set_alone h hi hc hj).imp_left And.right

theorem set_alone (h : Alone calls) (hi : calls[i]? = some c) (hc : c ≠ .done) (c' : Call) :
    Alone (calls.set i c') := by
  intro j k d e hj hk hd he
  have hj := (getElem?_set_alone h hi hc hj).resolve_right hd
  have hk := (getElem?_set_alone h hi hc hk).resolve_right he
  exact hj.1.trans hk.1.symm

theorem append_alone (h : ∀ d ∈ calls, d = .done) (c : Call) : Alone (calls ++ [c]) := by
  have hlast : ∀ j d, (calls ++ [c])[j]? = some d → d ≠ .done → j = calls.length := by
    intro j d hj hd
    by_contra hne
    rcases Nat.lt_or_gt_of_ne hne with hlt | hgt
    · rw [List.getElem?_append_left hlt] at hj
      exact hd (h d (List.mem_of_getElem? hj))
    · rw [List.getElem?_eq_none (by rw [List.length_append, List.length_singleton]; omega)] at hj
      cases hj
  intro i j d e hi hj hd he
  exact (hlast i d hi hd).trans (hlast j e hj he).symm

end alone

section single

variable {s s' : Sys}

def Current (s : Sys) : Call → Prop
  | .loaded lastQueryTime => lastQueryTime = s.lastQueryTime
  | .allowed lastQueryTime => lastQueryTime = s.lastQueryTime ∧
      lastQueryTime.toInt + s.minimumRefreshInterval.toInt ≤ s.now.toInt
  | .swapped time => time = s.lastQueryTime ∧ time ≤ s.now ∧
      ∀ r ∈ s.requests, r.toInt + s.minimumRefreshInterval.toInt ≤ time.toInt
  | .done => True

structure Exclusive (s : Sys) : Prop where
  alone : Alone s.calls
  current : ∀ call ∈ s.calls, Current s call
  sent : ∀ r ∈ s.requests, r ≤ s.lastQueryTime ∧ r ≤ s.now
  spaced : s.requests.Pairwise fun r r' => r.toInt + s.minimumRefreshInterval.toInt ≤ r'.toInt

theorem initial_exclusive (minimumRefreshInterval now : Int64) :
    Exclusive (initial minimumRefreshInterval now) where
  alone _ _ _ _ h := by cases h
  current _ h := absurd h List.not_mem_nil
  sent _ h := absurd h List.not_mem_nil
  spaced := .nil

theorem tick_exclusive {now : Int64} (h : Exclusive s) (hle : s.now ≤ now) :
    Exclusive { s with now := now } := by
  refine ⟨h.alone, fun call hcall => ?_, fun r hr =>
    ⟨(h.sent r hr).1, (h.sent r hr).2.trans hle⟩, h.spaced⟩
  have hcurrent := h.current call hcall
  cases call with
  | loaded lastQueryTime => exact hcurrent
  | allowed lastQueryTime => exact ⟨hcurrent.1, hcurrent.2.trans (Int64.le_iff_toInt_le.mp hle)⟩
  | swapped time => exact ⟨hcurrent.1, hcurrent.2.1.trans hle, hcurrent.2.2⟩
  | done => trivial

theorem load_exclusive (h : Exclusive s) (hfree : inFlight s < 1) :
    Exclusive { s with calls := s.calls ++ [.loaded s.lastQueryTime] } := by
  have hdone : ∀ call ∈ s.calls, call = .done := by
    have hzero := List.countP_eq_zero.mp (Nat.lt_one_iff.mp hfree)
    exact fun call hcall => not_not.mp fun hne => hzero call hcall (decide_eq_true hne)
  refine ⟨append_alone hdone _, fun call hcall => ?_, h.sent, h.spaced⟩
  rcases List.mem_append.mp hcall with hcall | hlast
  · rw [hdone call hcall]
    trivial
  · rw [List.mem_singleton.mp hlast]
    rfl

theorem set_exclusive {i : Nat} {c c' : Call} (h : Exclusive s) (hi : s.calls[i]? = some c)
    (hc : c ≠ .done) (hc' : Current s c') : Exclusive { s with calls := s.calls.set i c' } := by
  refine ⟨set_alone h.alone hi hc c', fun call hcall => ?_, h.sent, h.spaced⟩
  rcases mem_set_alone h.alone hi hc hcall with rfl | rfl
  · cases call <;> exact hc'
  · trivial

theorem swap_exclusive {i : Nat} {lastQueryTime : Int64} (h : Exclusive s)
    (hi : s.calls[i]? = some (.allowed lastQueryTime)) :
    Exclusive { s with lastQueryTime := if s.lastQueryTime = lastQueryTime then s.now
                         else s.lastQueryTime,
                       calls := s.calls.set i (.swapped s.now) } := by
  obtain ⟨heq, hlate⟩ := h.current _ (List.mem_of_getElem? hi)
  rw [if_pos heq.symm]
  refine ⟨set_alone h.alone hi (by simp) _, fun call hcall => ?_, fun r hr => ?_, h.spaced⟩
  · rcases mem_set_alone h.alone hi (by simp) hcall with rfl | rfl
    · refine ⟨rfl, Int64.le_refl _, fun r hr => ?_⟩
      have hr := Int64.le_iff_toInt_le.mp (h.sent r hr).1
      rw [heq] at hlate
      dsimp only
      omega
    · trivial
  · exact ⟨(h.sent r hr).2, (h.sent r hr).2⟩

theorem request_exclusive {i : Nat} {time : Int64} (h : Exclusive s)
    (hi : s.calls[i]? = some (.swapped time)) :
    Exclusive { s with calls := s.calls.set i .done, requests := s.requests ++ [time] } := by
  obtain ⟨heq, hle, hspaced⟩ := h.current _ (List.mem_of_getElem? hi)
  refine ⟨set_alone h.alone hi (by simp) _, fun call hcall => ?_, fun r hr => ?_, ?_⟩
  · rcases mem_set_alone h.alone hi (by simp) hcall with rfl | rfl <;> trivial
  · rcases List.mem_append.mp hr with hr | hlast
    · exact h.sent r hr
    · rw [List.mem_singleton.mp hlast]
      exact ⟨heq ▸ Int64.le_refl _, hle⟩
  · refine List.pairwise_append.mpr ⟨h.spaced, List.pairwise_singleton _ _, fun r hr r' hr' => ?_⟩
    rw [List.mem_singleton.mp hr']
    exact hspaced r hr

theorem step_exclusive {event : Event} (h : Exclusive s) (hone : AtMost 1 s event)
    (hs : step s event = .ok s') :
    Exclusive s' := by
  cases event with
  | tick now =>
      obtain ⟨hle, rfl⟩ := tick_ok hs
      exact tick_exclusive h hle
  | load =>
      cases hs
      exact load_exclusive h hone
  | check i =>
      obtain ⟨lastQueryTime, hi, rfl | ⟨hlate, rfl⟩⟩ := check_ok hs
      · exact set_exclusive h hi (by simp) trivial
      · exact set_exclusive h hi (by simp) ⟨h.current _ (List.mem_of_getElem? hi), hlate⟩
  | swap i =>
      obtain ⟨lastQueryTime, hi, rfl⟩ := swap_ok hs
      exact swap_exclusive h hi
  | request i =>
      obtain ⟨time, hi, rfl⟩ := request_ok hs
      exact request_exclusive h hi

theorem throttles_single (minimumRefreshInterval : Int64) {n : Nat} (hn : n ≤ 1) :
    Throttles minimumRefreshInterval n := by
  intro now events s halong hrun
  have hone : Along step (AtMost 1) (initial minimumRefreshInterval now) events := by
    refine Along.mono (fun s event h => ?_) halong
    cases event with
    | load => exact h.trans_le hn
    | _ => trivial
  have hs := run_invariant (fun _ _ _ hs hevent h => step_exclusive hs hevent h)
    (initial_exclusive minimumRefreshInterval now) hone hrun
  exact hs.spaced.imp fun h => .inl h

end single

section overlap

/-- Two calls that load the same time and pass the check before either swaps. -/
def overlapping : List Event :=
  [.load, .load, .check 0, .check 1, .swap 0, .swap 1, .request 0, .request 1]

theorem overlapping_requests (minimumRefreshInterval : Int64) :
    run step (initial minimumRefreshInterval minimumRefreshInterval) overlapping =
      .ok ⟨minimumRefreshInterval, minimumRefreshInterval, minimumRefreshInterval, [.done, .done],
        [minimumRefreshInterval, minimumRefreshInterval]⟩ := by
  simp [overlapping, run, step, initial, bind, Except.bind]

theorem overlapping_atMost {n : Nat} (hn : 2 ≤ n) (minimumRefreshInterval : Int64) :
    Along step (AtMost n) (initial minimumRefreshInterval minimumRefreshInterval) overlapping := by
  have hsecond : ∀ call,
      inFlight { initial minimumRefreshInterval minimumRefreshInterval with calls := [call] } < n :=
    fun call => List.countP_le_length.trans_lt hn
  refine ⟨Nat.zero_lt_of_lt hn, fun s hs => ?_⟩
  cases hs
  refine ⟨hsecond _, fun s _ => ⟨trivial, fun s _ =>
    ⟨trivial, fun s _ => ⟨trivial, fun s _ => ⟨trivial, fun s _ => ?_⟩⟩⟩⟩⟩
  exact ⟨trivial, fun s _ => ⟨trivial, fun _ _ => trivial⟩⟩

/-- Two calls in flight are enough to break the throttle, since the outcome of
the compare-and-swap is ignored. -/
theorem not_throttles {minimumRefreshInterval : Int64} {n : Nat}
    (hpos : 0 < minimumRefreshInterval.toInt) (hn : 2 ≤ n) :
    ¬ Throttles minimumRefreshInterval n := by
  intro h
  have hspaced := h minimumRefreshInterval overlapping _
      (overlapping_atMost hn minimumRefreshInterval)
    (overlapping_requests minimumRefreshInterval)
  rw [Spaced, List.pairwise_pair] at hspaced
  dsimp only at hspaced
  omega

theorem throttles_of_nonpos {minimumRefreshInterval : Int64}
    (h : minimumRefreshInterval.toInt ≤ 0) (n : Nat) :
    Throttles minimumRefreshInterval n := by
  intro now events s _ hrun
  have hinterval : s.minimumRefreshInterval = minimumRefreshInterval :=
    run_invariant (fun _ _ _ hs _ hstep => (step_interval hstep).trans hs) rfl
      (along_of_forall (fun _ _ => trivial) _ _) hrun
  refine List.pairwise_of_forall fun time time' => ?_
  rw [hinterval]
  omega

/-- The throttle keeps its interval with `n` calls at a time if and only if they
cannot overlap, or there is nothing to keep. -/
theorem throttles_iff (minimumRefreshInterval : Int64) (n : Nat) :
    Throttles minimumRefreshInterval n ↔ minimumRefreshInterval.toInt ≤ 0 ∨ n ≤ 1 := by
  constructor
  · intro h
    by_contra hneither
    obtain ⟨hpos, hn⟩ := not_or.mp hneither
    exact not_throttles (not_le.mp hpos) (not_le.mp hn) h
  · rintro (hnonpos | hn)
    · exact throttles_of_nonpos hnonpos n
    · exact throttles_single minimumRefreshInterval hn

/-- The default interval of five seconds. -/
theorem overlapping_refreshes_both_query : ¬ Throttles 5000000000 2 :=
  not_throttles (by decide) le_rfl

end overlap

section sequential

theorem refresh_records_time {env : Environment} {orders : Orders} {clock : Clock} {c : UAAClient}
    (h : ¬ Throttled clock c) :
    (refreshTokenKeys env orders clock c).1.lastQueryTime = Int64.ofInt clock.query := by
  rw [Throttled] at h
  rw [refreshTokenKeys, if_neg h]
  dsimp only
  cases fetchTokenKeys env { c with lastQueryTime := Int64.ofInt clock.query } with
  | error err => rfl
  | ok tokenKeys =>
      dsimp only
      obtain ⟨publicKeys, ids, err⟩ :=
        storeTokenKeys env c.publicKeys (currentKeyIds orders.publicKeys c.publicKeys) tokenKeys
      cases err <;> rfl

theorem refresh_interleaves (env : Environment) (orders : Orders) (c : UAAClient)
    {now check query remaining : Int64} (hcheck : now ≤ check) (hquery : check ≤ query) :
    ∃ events s, run step ⟨c.minimumRefreshInterval, c.lastQueryTime, now, [], []⟩ events = .ok s ∧
      s.lastQueryTime =
        (refreshTokenKeys env orders ⟨check.toInt, remaining.toInt, query.toInt⟩
          c).1.lastQueryTime ∧
      (s.requests = [] ↔ Throttled ⟨check.toInt, remaining.toInt, query.toInt⟩ c) := by
  by_cases h : Throttled ⟨check.toInt, remaining.toInt, query.toInt⟩ c
  · obtain ⟨err, herr⟩ := @refresh_throttled env orders _ c h
    rw [Throttled, nextAllowedRefreshTime] at h
    dsimp only at h
    refine ⟨[.load, .tick check, .check 0], ⟨c.minimumRefreshInterval, c.lastQueryTime, check,
      [.done], []⟩, ?_, ?_, iff_of_true rfl h⟩
    · simp [run, step, hcheck, h, bind, Except.bind]
    · rw [herr]
  · rw [refresh_records_time h]
    rw [Throttled, nextAllowedRefreshTime] at h
    dsimp only at h
    refine ⟨[.load, .tick check, .check 0, .tick query, .swap 0, .request 0],
      ⟨c.minimumRefreshInterval, query, query, [.done], [query]⟩, ?_,
        (Int64.ofInt_toInt query).symm,
      iff_of_false (List.cons_ne_nil _ _) h⟩
    simp [run, step, hcheck, hquery, h, bind, Except.bind]

end sequential

end LogCache.RefreshThrottle
