import LogCache.Runs
import LogCache.Syslog

namespace LogCache.SyslogIntake

open Envelopes MapOrders Syslog Runs

variable {lib : Library} {orders : Orders} {s s' : Server} {res : Result} {msg : SyslogMessage}

def CountedOnce (s s' : Server) : Prop :=
  (∃ env, s'.envelopes = s.envelopes ++ [env] ∧ s'.ingress = s.ingress + 1 ∧
    s'.invalidIngress = s.invalidIngress) ∨
    s'.envelopes = s.envelopes ∧ s'.ingress = s.ingress ∧ s'.invalidIngress = s.invalidIngress + 1

def HandledOnce (lib : Library) (orders : Orders) (s : Server) (res : Result) : Prop :=
  ∃ s', s.parseListener lib orders res = .ok s' ∧ CountedOnce s s'

section conversion

theorem finishEnvelope_ok (hpriority : msg.priority ≠ none) (env : Envelope) :
    ∃ outcome, s.finishEnvelope env msg = .ok outcome := by
  obtain ⟨priority, hpriority⟩ := Option.ne_none_iff_exists'.mp hpriority
  rw [Server.finishEnvelope]
  split
  · rw [Server.convertMessage, hpriority]
    exact ⟨_, rfl⟩
  · exact ⟨_, rfl⟩

theorem convertToEnvelope_ok (hpriority : msg.priority ≠ none)
    (h : msg.procID = none ∨ msg.appname = none ∨ msg.timestamp ≠ none) :
    ∃ outcome, s.convertToEnvelope lib orders (some msg) = .ok outcome := by
  rw [Server.convertToEnvelope]
  dsimp only
  cases hproc : msg.procID with
  | none => exact ⟨_, rfl⟩
  | some procID =>
      cases happ : msg.appname with
      | none => exact ⟨_, rfl⟩
      | some sourceID =>
          rw [hproc, happ] at h
          obtain ⟨timestamp, htime⟩ := Option.ne_none_iff_exists'.mp
            ((h.resolve_left (Option.some_ne_none _)).resolve_left (Option.some_ne_none _))
          rw [htime]
          dsimp only
          split
          · exact ⟨_, rfl⟩
          · exact finishEnvelope_ok hpriority _

theorem convertToEnvelope_panics (hproc : msg.procID ≠ none) (happ : msg.appname ≠ none)
    (htime : msg.timestamp = none) :
    s.convertToEnvelope lib orders (some msg) = .error .nilDereference := by
  obtain ⟨procID, hproc⟩ := Option.ne_none_iff_exists'.mp hproc
  obtain ⟨sourceID, happ⟩ := Option.ne_none_iff_exists'.mp happ
  rw [Server.convertToEnvelope]
  dsimp only
  rw [hproc, happ, htime]

end conversion

section listener

theorem parseListener_of_error (h : res.error ≠ none) :
    s.parseListener lib orders res = .ok { s with invalidIngress := s.invalidIngress + 1 } := by
  obtain ⟨err, herr⟩ := Option.ne_none_iff_exists'.mp h
  rw [Server.parseListener, herr]

theorem parseListener_of_message (herr : res.error = none) (hmsg : res.message = some msg) :
    s.parseListener lib orders res =
      match s.convertToEnvelope lib orders (some msg) with
      | .error p => .error p
      | .ok (.error _) => .ok { s with invalidIngress := s.invalidIngress + 1 }
      | .ok (.ok env) =>
          .ok { s with envelopes := s.envelopes ++ [env], ingress := s.ingress + 1 } := by
  rw [Server.parseListener, herr, hmsg]
  rfl

theorem handled_of_ok (herr : res.error = none) (hmsg : res.message = some msg)
    {outcome : Except String Envelope}
    (h : s.convertToEnvelope lib orders (some msg) = .ok outcome) :
    HandledOnce lib orders s res := by
  rw [HandledOnce, parseListener_of_message herr hmsg, h]
  cases outcome with
  | error err => exact ⟨_, rfl, .inr ⟨rfl, rfl, rfl⟩⟩
  | ok env => exact ⟨_, rfl, .inl ⟨env, rfl, rfl, rfl⟩⟩

/-- The result of a parsed message that can be converted, or that is turned down
before the timestamp is read. -/
def Dated (res : Result) : Prop :=
  res.error ≠ none ∨
    ∃ msg, res.message = some msg ∧ (msg.procID = none ∨ msg.appname = none ∨ msg.timestamp ≠ none)

theorem handled_of_dated (h : Emitted res) (hdated : Dated res) : HandledOnce lib orders s res := by
  rcases h with herr | ⟨msg, herr, hmsg, hpriority, -⟩
  · exact ⟨_, parseListener_of_error herr, .inr ⟨rfl, rfl, rfl⟩⟩
  · obtain ⟨msg', hmsg', hfields⟩ := hdated.resolve_left fun hne => hne herr
    obtain rfl : msg = msg' := Option.some.inj (hmsg.symm.trans hmsg')
    obtain ⟨outcome, houtcome⟩ := @convertToEnvelope_ok lib orders s msg hpriority hfields
    exact handled_of_ok herr hmsg houtcome

theorem panics_of_not_dated (h : Emitted res) (hdated : ¬ Dated res) :
    s.parseListener lib orders res = .error .nilDereference := by
  obtain ⟨herr, hfields⟩ := not_or.mp hdated
  obtain ⟨msg, hnone, hmsg, -⟩ := h.resolve_left herr
  have hmissing := not_exists.mp hfields msg
  push Not at hmissing
  obtain ⟨hproc, happ, htime⟩ := hmissing hmsg
  rw [parseListener_of_message hnone hmsg, convertToEnvelope_panics hproc happ htime]

/-- A parsed message is handled exactly if it has a timestamp, or if the
conversion gives up before it looks for one. -/
theorem handled_once_iff (lib : Library) (orders : Orders) (s : Server) (res : Result)
    (h : Emitted res) :
    HandledOnce lib orders s res ↔ res.error ≠ none ∨
      ∃ msg, res.message = some msg ∧
        (msg.procID = none ∨ msg.appname = none ∨ msg.timestamp ≠ none) := by
  refine ⟨?_, handled_of_dated h⟩
  rintro ⟨s', hs', -⟩
  by_contra hdated
  rw [panics_of_not_dated h hdated] at hs'
  cases hs'

def logLine (timestamp : Option Int) : Result :=
  ⟨some ⟨some 14, 1, timestamp, some "app", some "1", none, some [104, 105]⟩, none⟩

theorem emitted_logLine (timestamp : Option Int) : Emitted (logLine timestamp) :=
  .inr ⟨_, rfl, rfl, Option.some_ne_none _, Nat.one_pos⟩

theorem handled_once_with_timestamp :
    HandledOnce plainLibrary ⟨.any, .any⟩ ⟨true, [], 0, 0⟩ (logLine (some 0)) :=
  (handled_once_iff plainLibrary ⟨.any, .any⟩ ⟨true, [], 0, 0⟩ (logLine (some 0))
    (emitted_logLine _)).mpr
    (.inr ⟨_, rfl, .inr (.inr (Option.some_ne_none _))⟩)

theorem nil_timestamp_panics :
    ∃ orders, Emitted (logLine none) ∧
      Server.parseListener plainLibrary ⟨true, [], 0, 0⟩ orders (logLine none) =
        .error .nilDereference :=
  ⟨⟨.any, .any⟩, emitted_logLine none, rfl⟩

end listener

section connection

variable {results : List (Orders × Result)}

def receive (lib : Library) (s : Server) (x : Orders × Result) : Except Panic Server :=
  s.parseListener lib x.1 x.2

theorem receive_counted (x : Orders × Result) (h : Emitted x.2) (hs' : receive lib s x = .ok s') :
    CountedOnce s s' := by
  by_cases hdated : Dated x.2
  · obtain ⟨s'', hok, hcounted⟩ := @handled_of_dated lib x.1 s x.2 h hdated
    rw [receive, hok] at hs'
    cases hs'
    exact hcounted
  · rw [receive, panics_of_not_dated h hdated] at hs'
    cases hs'

theorem run_counts (hemitted : ∀ x ∈ results, Emitted x.2) (hs : s.envelopes.length = s.ingress)
    (hrun : run (receive lib) s results = .ok s') :
    s'.envelopes.length = s'.ingress ∧
      s'.ingress + s'.invalidIngress = s.ingress + s.invalidIngress + results.length := by
  have hsum := run_measure (P := fun x : Orders × Result => Emitted x.2)
      (I := fun s : Server => s.envelopes.length = s.ingress)
    (f := fun s => s.ingress + s.invalidIngress) (g := fun _ => 1)
    (fun s x s' hs hx hstep => ?_) hs hemitted hrun
  · simpa using hsum
  · rcases receive_counted x hx hstep with ⟨env, henvelopes, hingress, hinvalid⟩ | ⟨henvelopes,
      hingress, hinvalid⟩
    · rw [henvelopes, hingress, hinvalid, List.length_append, hs]
      exact ⟨rfl, by omega⟩
    · rw [henvelopes, hingress, hinvalid]
      exact ⟨hs, by omega⟩

theorem run_ok (hemitted : ∀ x ∈ results, Emitted x.2) (hdated : ∀ x ∈ results, Dated x.2)
    (s : Server) :
    ∃ s', run (receive lib) s results = .ok s' := by
  have hstep : ∀ (s : Server) x, True → Emitted x.2 ∧ Dated x.2 →
      ∃ s', receive lib s x = .ok s' ∧ True := by
    intro s x _ hx
    obtain ⟨t, ht, -⟩ := @handled_of_dated lib x.1 s x.2 hx.1 hx.2
    exact ⟨t, ht, trivial⟩
  obtain ⟨s', hrun, _⟩ :=
    run_progress hstep trivial (along_of_mem (fun _ x hx => ⟨hemitted x hx, hdated x hx⟩) s)
  exact ⟨s', hrun⟩

end connection

end LogCache.SyslogIntake
