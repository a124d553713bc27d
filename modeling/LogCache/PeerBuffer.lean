import LogCache.Diode
import LogCache.Routing

namespace LogCache.PeerBuffer

open Envelopes Diode Routing

def peerBufferSize : Nat := 10000

structure Written where
  request : SendRequest
  err : Bool
  waited : Int

structure Client where
  size : Nat
  interval : Int
  localOnly : Bool
  buffer : OneToOne Envelope
  batch : List Envelope
  lastSent : Int
  droppedMetric : Nat
  sendFailureMetric : Nat
  set : List Envelope
  taken : List Envelope
  written : List Written

def newClient (size : Nat) (interval now : Int) : Client :=
  ⟨size, interval, true, newOneToOne peerBufferSize, [], now, 0, 0, [], [], []⟩

/-- An envelope of a `Send`, or a turn of the loop in `start` at the time `now`
that ends at the time `done`. The calls of `Set` do not overlap, so that each is
one step as in `DiodeRace.apart_atomic`; handlers that send at the same time can
lose more. -/
inductive Event
  | set (e : Envelope)
  | turn (now done : Int) (err : Bool)

namespace Client

def setOne (c : Client) (e : Envelope) : Client :=
  { c with buffer := c.buffer.set e, set := c.set ++ [e] }

def elapsed (c : Client) (now : Int) : Bool := !decide (now - c.lastSent < c.interval)

def writeBatch (c : Client) (now done : Int) (err : Bool) : Client :=
  match c.batch with
  | [] => c
  | batch =>
      { c with
        batch := []
        lastSent := done
        sendFailureMetric := if err then c.sendFailureMetric + 1 else c.sendFailureMetric
        written := c.written ++ [⟨⟨c.localOnly, some batch⟩, err, now - c.lastSent⟩] }

def flush (c : Client) (now done : Int) (err : Bool) : Client :=
  if c.elapsed now then c.writeBatch now done err else c

def write (c : Client) (e : Envelope) (now done : Int) (err : Bool) : Client :=
  let c := { c with batch := c.batch ++ [e] }
  if c.batch.length < c.size ∧ ¬ c.elapsed now then c else c.writeBatch now done err

def turn (c : Client) (now done : Int) (err : Bool) : Client :=
  match c.buffer.tryNext with
  | (none, buffer) => { c with buffer := buffer }.flush now done err
  | (some (e, dropped), buffer) =>
      { c with buffer := buffer, droppedMetric := c.droppedMetric + dropped,
               taken := c.taken ++ [e] }.write e now done err

end Client

def step (c : Client) : Event → Except Stop Client
  | .set e => .ok (c.setOne e)
  | .turn now done err => .ok (c.turn now done err)

section conservation

def Client.unread (c : Client) : List Envelope := c.set.drop c.buffer.readIndex

def Client.sent (c : Client) : List Envelope := c.written.flatMap fun w => w.request.batch

/-- What the client keeps between its turns, and what is true in the middle of
one, before the batch is looked at. -/
structure Accounted (c : Client) : Prop where
  diode : Holds c.buffer c.set c.taken c.droppedMetric
  diodeSize : c.buffer.size = peerBufferSize
  order : c.taken = c.sent ++ c.batch
  failures : c.sendFailureMetric = c.written.countP Written.err
  requests : ∀ w ∈ c.written, w.request.localOnly = c.localOnly ∧ 1 ≤ w.request.batch.length ∧
    w.request.batch.length ≤ max c.size 1 ∧
      (w.request.batch.length < c.size → c.interval ≤ w.waited)

structure Settled (c : Client) : Prop extends Accounted c where
  room : c.batch.length < max c.size 1

theorem newClient_settled (size : Nat) (interval now : Int) :
    Settled (newClient size interval now) where
  diode := newOneToOne_holds (Nat.succ_pos 9999)
  diodeSize := rfl
  order := rfl
  failures := rfl
  requests _ h := absurd h List.not_mem_nil
  room := Nat.le_max_right _ _

variable {c : Client}

theorem setOne_settled (h : Settled c) (e : Envelope) : Settled (c.setOne e) :=
  { h with diode := set_holds h.diode e, diodeSize := h.diodeSize }

theorem writeBatch_settled (h : Accounted c) {now : Int} (hle : c.batch.length ≤ max c.size 1)
    (hwhen : c.batch.length < c.size → c.elapsed now = true) (done : Int) (err : Bool) :
    Settled (c.writeBatch now done err) := by
  rw [Client.writeBatch]
  cases hbatch : c.batch with
  | nil => exact { h with room := by simp [hbatch] }
  | cons e batch =>
      rw [hbatch] at hle hwhen
      refine { h with order := ?_, failures := ?_, requests := fun w hw => ?_,
                      room := Nat.le_max_right _ _ }
      · simpa [Client.sent, SendRequest.batch, hbatch] using h.order
      · cases err <;> simp [h.failures]
      · rcases List.mem_append.mp hw with hw | hlast
        · exact h.requests w hw
        · rw [List.mem_singleton.mp hlast]
          refine ⟨rfl, Nat.succ_le_succ (Nat.zero_le _), hle, fun hlt => ?_⟩
          have helapsed := hwhen hlt
          simpa [Client.elapsed] using helapsed

theorem flush_settled (h : Settled c) (now done : Int) (err : Bool) :
    Settled (c.flush now done err) := by
  rw [Client.flush]
  split_ifs with helapsed
  · exact writeBatch_settled h.toAccounted h.room.le (fun _ => helapsed) done err
  · exact h

theorem write_settled {e : Envelope} (h : Accounted { c with batch := c.batch ++ [e] })
    (hroom : c.batch.length < max c.size 1) (now done : Int) (err : Bool) :
    Settled (c.write e now done err) := by
  have hle : (c.batch ++ [e]).length ≤ max c.size 1 := by simpa using Nat.succ_le_of_lt hroom
  rw [Client.write]
  split_ifs with hkeep
  · exact { h with room := hkeep.1.trans_le (Nat.le_max_left _ _) }
  · refine writeBatch_settled h hle (fun hlt => ?_) done err
    by_contra hnot
    exact hkeep ⟨hlt, hnot⟩

theorem turn_settled (h : Settled c) (now done : Int) (err : Bool) :
    Settled (c.turn now done err) := by
  have hholds := tryNext_holds h.diode
  have hsize := (tryNext_size c.buffer).trans h.diodeSize
  rw [Client.turn]
  cases hnext : c.buffer.tryNext with
  | mk next buffer =>
      rw [hnext] at hholds hsize
      cases next with
      | none =>
          apply flush_settled
          exact { h with diode := by simpa using hholds, diodeSize := hsize }
      | some next =>
          apply write_settled
          case hroom => exact h.room
          refine { h with diode := hholds, diodeSize := hsize, order := ?_ }
          simp [h.order, Client.sent]

theorem step_settled {c' : Client} (h : Settled c) {event : Event} (hstep : step c event = .ok c') :
    Settled c' := by
  cases event with
  | set e =>
      cases hstep
      exact setOne_settled h e
  | turn now done err =>
      cases hstep
      exact turn_settled h now done err

theorem run_settled {c' : Client} (h : Settled c) {events : List Event}
    (hrun : Runs.run step c events = .ok c') :
    Settled c' :=
  Runs.run_invariant (fun _ _ _ hs _ hstep => step_settled hs hstep) h
    (Runs.along_of_forall (fun _ _ => trivial) c events) hrun

theorem step_config {c' : Client} {event : Event} (hstep : step c event = .ok c') :
    c'.size = c.size ∧ c'.interval = c.interval ∧ c'.localOnly = c.localOnly := by
  cases event with
  | set e =>
      cases hstep
      exact ⟨rfl, rfl, rfl⟩
  | turn now done err =>
      cases hstep
      simp only [Client.turn, Client.flush, Client.write, Client.writeBatch]
      split <;> split_ifs <;> (try split) <;> exact ⟨rfl, rfl, rfl⟩

theorem run_config {c' : Client} {events : List Event} (hrun : Runs.run step c events = .ok c') :
    c'.size = c.size ∧ c'.interval = c.interval ∧ c'.localOnly = c.localOnly := by
  refine @Runs.run_invariant _ _ _ step (fun _ _ => True)
    (fun d => d.size = c.size ∧ d.interval = c.interval ∧ d.localOnly = c.localOnly) ?_ c c' events
    ⟨rfl, rfl, rfl⟩ (Runs.along_of_forall (fun _ _ => trivial) c events) hrun
  rintro d event d' ⟨hsize, hinterval, hlocal⟩ _ hstep
  obtain ⟨hsize', hinterval', hlocal'⟩ := step_config hstep
  exact ⟨hsize'.trans hsize, hinterval'.trans hinterval, hlocal'.trans hlocal⟩

/-- What was taken from the diode leaves in order, in requests that are full or
have waited for the interval. What was not taken is unread or was counted as
dropped. -/
theorem peer_conserves (size : Nat) (interval now : Int) (events : List Event) (c : Client)
    (hsize : 0 < size) (hrun : Runs.run step (newClient size interval now) events = .ok c) :
    (∃ overwritten : List Envelope,
      c.set.Perm (c.sent ++ c.batch ++ overwritten ++ c.unread) ∧
      overwritten.length = c.droppedMetric) ∧
      (c.sent ++ c.batch).Sublist (c.set.take c.buffer.readIndex) ∧ c.batch.length < size ∧
      c.sendFailureMetric = c.written.countP Written.err ∧
      ∀ w ∈ c.written, w.request.localOnly = true ∧ 1 ≤ w.request.batch.length ∧
        w.request.batch.length ≤ size ∧
        (w.request.batch.length < size → interval ≤ w.waited) := by
  have h := run_settled (newClient_settled size interval now) hrun
  obtain ⟨hsize', hinterval, hlocal⟩ := run_config hrun
  have hroom := h.room
  have hrequests := h.requests
  rw [hsize', hinterval, hlocal] at hrequests
  rw [hsize'] at hroom
  have hmax : max (newClient size interval now).size 1 = size := Nat.max_eq_left hsize
  rw [hmax] at hroom hrequests
  refine ⟨?_, ?_, hroom, h.failures, hrequests⟩
  · rw [← h.order]
    exact h.diode.perm
  · rw [← h.order]
    exact h.diode.accounted.order

def threeEnvelopes : List Event :=
  [.set (bare 1), .set (bare 2), .turn 1 1 false, .set (bare 3), .turn 2 2 true, .turn 3 3 false,
    .turn 20 21 false]

theorem peer_conserves_three : ∃ c, Runs.run step (newClient 2 10 0) threeEnvelopes = .ok c ∧
    c.written.length = 2 ∧ (c.sent ++ c.batch).Sublist (c.set.take c.buffer.readIndex) :=
  ⟨_, rfl, rfl, (peer_conserves 2 10 0 threeEnvelopes _ (by decide) rfl).2.1⟩

end conservation

section refinement

/-- The client that `Routing` has, whose buffer drops nothing, and the requests
it has sent. -/
structure Peer where
  client : BatchedIngressClient
  sent : List SendRequest

inductive Action
  | send (e : Envelope)
  | poll (elapsed : Bool)

def act (p : Peer) : Action → Except Stop Peer
  | .send e => .ok { p with client := p.client.send ⟨true, some [e]⟩ }
  | .poll elapsed => .ok ⟨(p.client.poll elapsed).1, p.sent ++ (p.client.poll elapsed).2⟩

inductive Matches : Event → Action → Prop
  | set (e : Envelope) : Matches (.set e) (.send e)
  | turn (now done : Int) (err elapsed : Bool) : Matches (.turn now done err) (.poll elapsed)

structure Refines (c : Client) (p : Peer) : Prop where
  size : p.client.size = c.size
  localOnly : p.client.localOnly = c.localOnly
  buffer : p.client.buffer = c.unread
  batch : p.client.batch = c.batch
  sent : p.sent = c.written.map Written.request

def Unlapped (c : Client) : Event → Prop
  | .set _ => c.unread.length < peerBufferSize
  | .turn _ _ _ => True

instance decidableUnlapped (c : Client) : ∀ event, Decidable (Unlapped c event)
  | .set _ => inferInstanceAs (Decidable (_ < _))
  | .turn _ _ _ => inferInstanceAs (Decidable True)

variable {c : Client} {p : Peer}

theorem setOne_unread (h : Settled c) (e : Envelope) : (c.setOne e).unread = c.unread ++ [e] := by
  rw [Client.unread, Client.unread]
  exact List.drop_append_of_le_length h.diode.accounted.bound

theorem setOne_refines (h : Settled c) (hrefines : Refines c p) (e : Envelope) :
    Refines (c.setOne e) { p with client := p.client.send ⟨true, some [e]⟩ } where
  __ := hrefines
  size := hrefines.size
  localOnly := hrefines.localOnly
  buffer := by
    rw [setOne_unread h, ← hrefines.buffer]
    rfl
  batch := hrefines.batch

theorem writeBatch_refines (hrefines : Refines c p) (now done : Int) (err : Bool) :
    Refines (c.writeBatch now done err) ⟨p.client.writeBatch.1,
      p.sent ++ p.client.writeBatch.2⟩ := by
  obtain ⟨hsize, hlocal, hbuffer, hbatch, hsent⟩ := hrefines
  rw [Client.writeBatch, BatchedIngressClient.writeBatch, hbatch]
  cases c.batch with
  | nil => exact ⟨hsize, hlocal, hbuffer, hbatch, by simpa using hsent⟩
  | cons e batch => exact ⟨hsize, hlocal, hbuffer, rfl, by simp [hsent, hlocal]⟩

theorem turn_refines (h : Settled c) (hlap : c.unread.length ≤ peerBufferSize)
    (hrefines : Refines c p) (now done : Int) (err : Bool) :
    ∃ elapsed, Refines (c.turn now done err) ⟨(p.client.poll elapsed).1,
      p.sent ++ (p.client.poll elapsed).2⟩ := by
  refine ⟨c.elapsed now, ?_⟩
  have hlap' : c.set.length ≤ c.buffer.readIndex + c.buffer.size := by
    rw [h.diodeSize]
    simp only [Client.unread, List.length_drop] at hlap
    omega
  obtain ⟨hnext, hunread⟩ := tryNext_in_order h.diode hlap'
  obtain ⟨hsize, hlocal, hbuffer, hbatch, hsent⟩ := hrefines
  rw [Client.turn, BatchedIngressClient.poll, hbuffer, Client.unread]
  cases hread : c.set.drop c.buffer.readIndex with
  | nil =>
      rw [hread] at hnext hunread
      rw [show c.buffer.tryNext = (none, c.buffer.tryNext.2) from Prod.ext hnext rfl]
      have hmoved : Refines { c with buffer := c.buffer.tryNext.2 } p :=
        ⟨hsize, hlocal, hbuffer.trans (hread.trans hunread.symm), hbatch, hsent⟩
      change Refines (if c.elapsed now then _ else _) _
      cases c.elapsed now with
      | true => exact writeBatch_refines hmoved now done err
      | false => exact ⟨hsize, hlocal, hmoved.buffer, hbatch, by simpa using hsent⟩
  | cons e rest =>
      rw [hread] at hnext hunread
      rw [show c.buffer.tryNext = (some (e, 0), c.buffer.tryNext.2) from Prod.ext hnext rfl]
      have hmoved : Refines
          { c with buffer := c.buffer.tryNext.2, droppedMetric := c.droppedMetric + 0,
                   taken := c.taken ++ [e], batch := c.batch ++ [e] }
          ⟨{ p.client with buffer := rest, batch := p.client.batch ++ [e] }, p.sent⟩ :=
        ⟨hsize, hlocal, hunread.symm, congrArg (· ++ [e]) hbatch, hsent⟩
      change Refines (if (c.batch ++ [e]).length < c.size ∧ ¬ c.elapsed now then _ else _) _
      have hsame : ((p.client.batch ++ [e]).length < p.client.size ∧ ¬ c.elapsed now = true) ↔
          ((c.batch ++ [e]).length < c.size ∧ ¬ c.elapsed now = true) := by rw [hbatch, hsize]
      by_cases hkeep : (c.batch ++ [e]).length < c.size ∧ ¬ c.elapsed now = true
      · simp only [if_pos hkeep, if_pos (hsame.mpr hkeep)]
        exact { hmoved with sent := by simpa using hsent }
      · simp only [if_neg hkeep, if_neg (fun h => hkeep (hsame.mp h))]
        exact writeBatch_refines hmoved now done err

theorem turn_buffer (c : Client) (now done : Int) (err : Bool) :
    (c.turn now done err).set = c.set ∧ (c.turn now done err).buffer = c.buffer.tryNext.2 ∧
      (c.turn now done err).droppedMetric = c.droppedMetric + c.buffer.tryNext.1.elim 0
        Prod.snd := by
  simp only [Client.turn, Client.flush, Client.write, Client.writeBatch]
  split <;> rename_i hnext <;> rw [hnext] <;> split_ifs <;> (try split) <;> exact ⟨rfl, rfl, rfl⟩

/-- The two clients side by side, as long as the diode is not lapped. -/
structure Level (c : Client) (p : Peer) : Prop extends Settled c, Refines c p where
  unlapped : c.unread.length ≤ peerBufferSize
  silent : c.droppedMetric = 0

theorem newClient_level (size : Nat) (interval now : Int) (addr : String) :
    Level (newClient size interval now) ⟨newBatchedIngressClient size addr, []⟩ where
  toSettled := newClient_settled size interval now
  toRefines := ⟨rfl, rfl, rfl, rfl, rfl⟩
  unlapped := Nat.zero_le _
  silent := rfl

theorem step_level (h : Level c p) {event : Event} (hunlapped : Unlapped c event) {c' : Client}
    (hstep : step c event = .ok c') : ∃ action p', Matches event action ∧ act p action = .ok p' ∧
      Level c' p' := by
  cases event with
  | set e =>
      cases hstep
      have hlt : c.unread.length < peerBufferSize := hunlapped
      refine ⟨.send e, _, .set e, rfl, ?_⟩
      refine ⟨setOne_settled h.toSettled e, setOne_refines h.toSettled h.toRefines e, ?_, h.silent⟩
      rw [setOne_unread h.toSettled, List.length_append]
      exact hlt
  | turn now done err =>
      cases hstep
      obtain ⟨elapsed, hrefines⟩ := turn_refines h.toSettled h.unlapped h.toRefines now done err
      obtain ⟨hset, hbuffer, hdropped⟩ := turn_buffer c now done err
      have hunread := h.unlapped
      have hlap : c.set.length ≤ c.buffer.readIndex + c.buffer.size := by
        rw [h.diodeSize]
        simp only [Client.unread, List.length_drop] at hunread
        omega
      obtain ⟨hnext, htail⟩ := tryNext_in_order h.diode hlap
      refine ⟨.poll elapsed, _, .turn now done err elapsed, rfl, ?_⟩
      refine ⟨turn_settled h.toSettled now done err, hrefines, ?_, ?_⟩
      · rw [Client.unread, hset, hbuffer, htail, List.length_tail]
        rw [Client.unread] at hunread
        omega
      · rw [hdropped, h.silent, hnext]
        cases (c.set.drop c.buffer.readIndex).head? <;> rfl

theorem run_level (h : Level c p) {events : List Event}
    (hunlapped : Runs.Along step Unlapped c events) {c' : Client}
    (hrun : Runs.run step c events = .ok c') :
    ∃ actions p', List.Forall₂ Matches events actions ∧ Runs.run act p actions = .ok p' ∧
      Level c' p' := by
  induction events generalizing c p with
  | nil =>
      cases hrun
      exact ⟨[], p, .nil, rfl, h⟩
  | cons event events ih =>
      obtain ⟨d, hd, hrun⟩ := Runs.run_cons_ok hrun
      obtain ⟨action, q, hmatches, hact, hlevel⟩ := step_level h hunlapped.1 hd
      obtain ⟨actions, p', hall, hrun', hend⟩ := ih hlevel (hunlapped.2 d hd) hrun
      exact ⟨action :: actions, p', .cons hmatches hall,
        (Runs.run_cons_of_ok hact actions).trans hrun', hend⟩

/-- As long as fewer envelopes are unread than the diode has slots, the client
does step by step what the one without a diode does. -/
theorem peer_refines (size : Nat) (interval now : Int) (addr : String) (events : List Event)
    (c : Client) (hunlapped : Runs.Along step Unlapped (newClient size interval now) events)
    (hrun : Runs.run step (newClient size interval now) events = .ok c) :
    c.droppedMetric = 0 ∧ ∃ actions b, List.Forall₂ Matches events actions ∧
      Runs.run act ⟨newBatchedIngressClient size addr, []⟩ actions =
        .ok ⟨b, c.written.map Written.request⟩ ∧
      b.buffer = c.unread ∧ b.batch = c.batch := by
  obtain ⟨actions, p, hmatches, hact, h⟩ :=
    run_level (newClient_level size interval now addr) hunlapped hrun
  refine ⟨h.silent, actions, p.client, hmatches, ?_, h.buffer, h.batch⟩
  rw [← h.sent]
  exact hact

theorem peer_refines_three : ∃ c, Runs.run step (newClient 2 10 0) threeEnvelopes = .ok c ∧
    Runs.Along step Unlapped (newClient 2 10 0) threeEnvelopes ∧ c.droppedMetric = 0 := by
  have hunlapped : Runs.Along step Unlapped (newClient 2 10 0) threeEnvelopes := by decide
  exact ⟨_, rfl, hunlapped, (peer_refines 2 10 0 "" threeEnvelopes _ hunlapped rfl).1⟩

end refinement

end LogCache.PeerBuffer
