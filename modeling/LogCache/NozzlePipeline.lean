import LogCache.Diode
import LogCache.Nozzle
import LogCache.Runs

namespace LogCache.NozzlePipeline

open Envelopes Slices Diode Nozzle

def streamBufferSize : Nat := 100000

/-- The reader, the batcher and the workers of a nozzle. `counting` and `polled`
tell where the reader and the batcher are in their loops, and `dropped` what the
alerts have logged. The last four fields are history; of a request that was
answered the envelopes are recorded with whether it failed. -/
structure Pipeline where
  streamBuffer : OneToOne Envelope
  counting : Bool
  batcher : Batcher
  polled : Bool
  ch : List Slice
  workers : Nat
  sending : List Slice
  ingressCounter : Nat
  egressCounter : Nat
  errCounter : Nat
  dropped : List Nat
  ingressed : List Envelope
  taken : List Envelope
  received : List Slice
  responses : List (List Envelope × Bool)

def start (workers : Nat) : Pipeline :=
  ⟨newOneToOne streamBufferSize, false, newBatcher, false, [], workers, [], 0, 0, 0, [],
    [], [], [], []⟩

inductive Event
  | ingress (e : Envelope)
  | count
  | tryNext
  | select (fired : Bool)
  | receive
  | respond (k : Nat) (err : Bool)

def due (b : Batcher) (fired : Bool) : Bool :=
  if fired then decide (0 < b.envelopes.length) else decide (batchChannelSize ≤ b.envelopes.length)

namespace Pipeline

def full (p : Pipeline) : Bool := decide (batchChannelSize ≤ p.ch.length)

/-- `envelopeReader` sets an envelope, and counts it after that. -/
def ingress (p : Pipeline) (e : Envelope) : Pipeline :=
  { p with streamBuffer := p.streamBuffer.set e, counting := true, ingressed := p.ingressed ++ [e] }

def count (p : Pipeline) : Pipeline :=
  { p with counting := false, ingressCounter := p.ingressCounter + 1 }

/-- The first half of a turn of `envelopeBatcher`. -/
def tryNext (grow : Nat → Nat) (p : Pipeline) : Pipeline :=
  let next := p.streamBuffer.tryNext
  { p with
    streamBuffer := next.2
    batcher := poll grow p.batcher (next.1.map Prod.fst)
    polled := true
    dropped := p.dropped ++ (next.1.toList.map Prod.snd).filter (0 < ·)
    taken := p.taken ++ (next.1.map Prod.fst).toList }

/-- The second half. The channel may have been read from in between. -/
def select (p : Pipeline) (fired : Bool) : Pipeline :=
  if due p.batcher fired then
    { p with
      batcher := flush p.batcher p.full
      polled := false
      ch := if p.full then p.ch else p.ch ++ [p.batcher.envelopes] }
  else { p with polled := false }

def receive (p : Pipeline) (envelopes : Slice) (ch : List Slice) : Pipeline :=
  { p with ch := ch, sending := p.sending ++ [envelopes], received := p.received ++ [envelopes] }

def respond (p : Pipeline) (k : Nat) (envelopes : Slice) (err : Bool) : Pipeline :=
  { p with
    sending := p.sending.eraseIdx k
    errCounter := if err then p.errCounter + 1 else p.errCounter
    egressCounter := if err then p.egressCounter else p.egressCounter + envelopes.length
    responses := p.responses ++ [(elements p.batcher.memory envelopes, err)] }

end Pipeline

def step (grow : Nat → Nat) (p : Pipeline) : Event → Except Stop Pipeline
  | .ingress e => if p.counting then .error .disabled else .ok (p.ingress e)
  | .count => if p.counting then .ok p.count else .error .disabled
  | .tryNext => if p.polled then .error .disabled else .ok (p.tryNext grow)
  | .select fired => if p.polled then .ok (p.select fired) else .error .disabled
  | .receive =>
      match p.ch with
      | [] => .error .disabled
      | envelopes :: ch =>
          if p.sending.length < p.workers then .ok (p.receive envelopes ch) else .error .disabled
  | .respond k err =>
      match p.sending[k]? with
      | none => .error .disabled
      | some envelopes => .ok (p.respond k envelopes err)

theorem turn_eq (grow : Nat → Nat) (b : Batcher) (turn : Turn) :
    envelopeBatcher grow b turn =
      if due (poll grow b turn.polled) turn.fired then flush (poll grow b turn.polled) turn.full
      else poll grow b turn.polled := by
  rw [envelopeBatcher, due]
  cases turn.fired <;> simp

section slices

def sentSlice : Batch → Option Slice
  | .sent envelopes => some envelopes
  | .dropped _ => none

def sentSlices (batches : List Batch) : List Slice := batches.filterMap sentSlice

def flooredBatch : Batch → Option (List Envelope)
  | .sent _ => none
  | .dropped envelopes => some envelopes

def floored (batches : List Batch) : List (List Envelope) := batches.filterMap flooredBatch

theorem mem_sentSlices {batches : List Batch} {s : Slice} (h : s ∈ sentSlices batches) :
    .sent s ∈ batches := by
  obtain ⟨batch, hbatch, hslice⟩ := List.mem_filterMap.mp h
  cases batch with
  | sent s' =>
      cases hslice
      exact hbatch
  | dropped envelopes => cases hslice

theorem contents_perm (m : Memory Envelope) (batches : List Batch) :
    (batches.map (Batch.contents m)).Perm
      ((sentSlices batches).map (elements m) ++ floored batches) := by
  induction batches with
  | nil => exact List.Perm.refl _
  | cons batch batches ih =>
      cases batch with
      | sent s => exact ih.cons _
      | dropped envelopes => exact (ih.cons _).trans List.perm_middle.symm

theorem poll_elements {grow : Nat → Nat} {b : Batcher} (h : Sound b) (polled : Option Envelope) :
    ∀ s ∈ sentSlices b.batches, elements (poll grow b polled).memory s = elements b.memory s := by
  intro s hs
  refine poll_contents h polled (.sent s) ?_
  rw [poll_batches]
  exact mem_sentSlices hs

theorem flush_elements (b : Batcher) (full : Bool) (s : Slice) :
    elements (flush b full).memory s = elements b.memory s := by
  cases full <;> rfl

end slices

section invariant

/-- Where every envelope is that came from the stream, and what the counters
say about it. -/
structure Conserved (p : Pipeline) : Prop where
  diode : Holds p.streamBuffer p.ingressed p.taken p.dropped.sum
  size : p.streamBuffer.size = streamBufferSize
  batcher : Sound p.batcher
  room : p.batcher.envelopes.length + (if p.polled then 0 else 1) ≤ batchChannelSize
  passed : Nozzle.passed p.batcher = p.taken
  sent : sentSlices p.batcher.batches = p.received ++ p.ch
  channel : p.ch.length ≤ batchChannelSize
  busy : p.sending.length ≤ p.workers
  sending : ∀ s ∈ p.sending, s ∈ p.received
  answered : (p.received.map (elements p.batcher.memory)).Perm
    (p.responses.map Prod.fst ++ p.sending.map (elements p.batcher.memory))
  single : p.workers = 1 → p.received.map (elements p.batcher.memory) =
    p.responses.map Prod.fst ++ p.sending.map (elements p.batcher.memory)
  ingress : p.ingressCounter + (if p.counting then 1 else 0) = p.ingressed.length
  egress : p.egressCounter = ((p.responses.filter fun r => !r.2).flatMap Prod.fst).length
  errors : p.errCounter = (p.responses.filter fun r => r.2).length

theorem start_conserved (workers : Nat) : Conserved (start workers) where
  diode := newOneToOne_holds (Nat.succ_pos 99999)
  size := rfl
  batcher := newBatcher_sound
  room := Nat.succ_le_succ (Nat.zero_le 511)
  passed := rfl
  sent := rfl
  channel := Nat.zero_le _
  busy := Nat.zero_le _
  sending _ h := absurd h List.not_mem_nil
  answered := List.Perm.refl _
  single _ := rfl
  ingress := rfl
  egress := rfl
  errors := rfl

variable {grow : Nat → Nat} {p : Pipeline}

theorem ingress_conserved (h : Conserved p) (hcounting : p.counting = false) (e : Envelope) :
    Conserved (p.ingress e) where
  __ := h
  diode := set_holds h.diode e
  size := h.size
  ingress := by
    have hingress := h.ingress
    simp only [hcounting, Bool.false_eq_true, if_false] at hingress
    simp [Pipeline.ingress, ← hingress]

theorem count_conserved (h : Conserved p) (hcounting : p.counting = true) : Conserved p.count where
  __ := h
  ingress := by
    have hingress := h.ingress
    simp only [hcounting, if_true] at hingress
    simpa [Pipeline.count] using hingress

theorem sum_alerts (next : Option (Envelope × Nat)) :
    ((next.toList.map Prod.snd).filter (0 < ·)).sum = next.elim 0 Prod.snd := by
  cases next with
  | none => rfl
  | some next => by_cases hpos : 0 < next.2 <;> simp [hpos]; omega

theorem Conserved.elements_received (h : Conserved p) {m : Memory Envelope}
    (hm : ∀ s ∈ sentSlices p.batcher.batches, elements m s = elements p.batcher.memory s) :
    p.received.map (elements m) = p.received.map (elements p.batcher.memory) ∧
      p.sending.map (elements m) = p.sending.map (elements p.batcher.memory) := by
  have hreceived : ∀ s ∈ p.received, elements m s = elements p.batcher.memory s := fun s hs =>
    hm s (h.sent ▸ List.mem_append_left _ hs)
  exact ⟨List.map_congr_left hreceived, List.map_congr_left fun s hs =>
    hreceived s (h.sending s hs)⟩

theorem tryNext_conserved (h : Conserved p) (hpolled : p.polled = false) :
    Conserved (p.tryNext grow) := by
  have hroom : p.batcher.envelopes.length + 1 ≤ batchChannelSize := by simpa [hpolled] using h.room
  obtain ⟨hreceived, hsending⟩ := h.elements_received
    (@poll_elements grow p.batcher h.batcher (p.streamBuffer.tryNext.1.map Prod.fst))
  refine
    { h with
      diode := ?_
      size := (tryNext_size _).trans h.size
      batcher := poll_sound h.batcher _
      room := (poll_length _).trans hroom
      passed := (poll_passed h.batcher _).trans (congrArg (· ++ _) h.passed)
      sent := (congrArg sentSlices (poll_batches _)).trans h.sent
      answered := ?_
      single := fun hworkers => ?_ }
  · simp only [Pipeline.tryNext, List.sum_append, sum_alerts]
    exact tryNext_holds h.diode
  · simp only [Pipeline.tryNext, hreceived, hsending]
    exact h.answered
  · simp only [Pipeline.tryNext, hreceived, hsending]
    exact h.single hworkers

theorem due_length {b : Batcher} {fired : Bool} (h : due b fired = true) :
    0 < b.envelopes.length := by
  cases fired with
  | true => simpa [due] using h
  | false =>
      have hlength : batchChannelSize ≤ b.envelopes.length := by simpa [due] using h
      exact Nat.lt_of_lt_of_le (Nat.succ_pos 511) hlength

theorem length_lt_of_not_due {b : Batcher} {fired : Bool} (h : ¬ due b fired = true) :
    b.envelopes.length < batchChannelSize := by
  cases fired with
  | true =>
      have hlength : b.envelopes.length = 0 := by simpa [due] using h
      rw [hlength]
      exact Nat.succ_pos 511
  | false => simpa [due] using h

theorem flush_sent {b : Batcher} {ch received : List Slice}
    (h : sentSlices b.batches = received ++ ch) (full : Bool) :
    sentSlices (flush b full).batches = received ++ if full then ch else ch ++ [b.envelopes] := by
  rw [sentSlices] at h
  cases full <;> simp [flush, sentSlices, sentSlice, h]

theorem select_conserved (h : Conserved p) (hpolled : p.polled = true) (fired : Bool) :
    Conserved (p.select fired) := by
  have hroom : p.batcher.envelopes.length ≤ batchChannelSize := by simpa [hpolled] using h.room
  rw [Pipeline.select]
  by_cases hdue : due p.batcher fired = true
  · rw [if_pos hdue]
    obtain ⟨hreceived, hsending⟩ := h.elements_received fun s _ => flush_elements p.batcher p.full s
    refine
      { h with
        batcher := flush_sound h.batcher (due_length hdue) hroom p.full
        room := ?_
        passed := (flush_passed _).trans h.passed
        sent := flush_sent h.sent p.full
        channel := ?_
        answered := ?_
        single := fun hworkers => ?_ }
    · simp only [flush_length]
      exact Nat.succ_le_succ (Nat.zero_le 511)
    · cases hfull : p.full with
      | true => exact h.channel
      | false =>
          have hlt : p.ch.length < batchChannelSize := by simpa [Pipeline.full] using hfull
          simpa using Nat.succ_le_of_lt hlt
    · simp only [hreceived, hsending]
      exact h.answered
    · simp only [hreceived, hsending]
      exact h.single hworkers
  · rw [if_neg hdue]
    exact { h with room := length_lt_of_not_due hdue }

theorem receive_conserved (h : Conserved p) {envelopes : Slice} {ch : List Slice}
    (hch : p.ch = envelopes :: ch) (hfree : p.sending.length < p.workers) :
    Conserved (p.receive envelopes ch) := by
  have hchannel := h.channel
  rw [hch, List.length_cons] at hchannel
  refine
    { h with
      sent := ?_
      channel := Nat.le_of_succ_le hchannel
      busy := ?_
      sending := fun s hs => ?_
      answered := ?_
      single := fun hworkers => ?_ }
  · simp only [Pipeline.receive, h.sent, hch]
    simp
  · simpa [Pipeline.receive] using Nat.succ_le_of_lt hfree
  · simp only [Pipeline.receive, List.mem_append] at hs ⊢
    exact hs.imp_left (h.sending s)
  · simp only [Pipeline.receive, List.map_append, ← List.append_assoc]
    exact h.answered.append_right _
  · simp only [Pipeline.receive, List.map_append, ← List.append_assoc, h.single hworkers]

theorem map_eraseIdx_perm {xs : List Slice} {k : Nat} {s : Slice} (h : xs[k]? = some s)
    (f : Slice → List Envelope) :
    (xs.map f).Perm (f s :: (xs.eraseIdx k).map f) := by
  obtain ⟨hk, rfl⟩ := List.getElem?_eq_some_iff.mp h
  exact ((List.getElem_cons_eraseIdx_perm hk).map f).symm

theorem respond_conserved (h : Conserved p) {k : Nat} {envelopes : Slice}
    (hk : p.sending[k]? = some envelopes) (err : Bool) : Conserved (p.respond k envelopes err) := by
  have hmem := List.mem_of_getElem? hk
  have hvalid : Valid p.batcher.memory envelopes := by
    refine (h.batcher.separate envelopes (mem_sentSlices ?_)).1
    rw [h.sent]
    exact List.mem_append_left _ (h.sending _ hmem)
  refine
    { h with
      busy := (List.length_eraseIdx_le _ _).trans h.busy
      sending := fun s hs => h.sending s (List.mem_of_mem_eraseIdx hs)
      answered := ?_
      single := fun hworkers => ?_
      egress := ?_
      errors := ?_ }
  · simp only [Pipeline.respond, List.map_append, List.map_singleton, List.append_assoc,
      List.singleton_append]
    exact h.answered.trans ((map_eraseIdx_perm hk _).append_left _)
  · have hone : p.sending = [envelopes] := by
      have hbusy := h.busy
      rw [show p.workers = 1 from hworkers] at hbusy
      cases hsending : p.sending with
      | nil => simp [hsending] at hmem
      | cons s rest =>
          simp only [hsending, List.length_cons] at hbusy
          have hrest : rest = [] := List.eq_nil_of_length_eq_zero (by omega)
          simp_all
    have hk0 : k = 0 := by
      have hlt := (List.getElem?_eq_some_iff.mp hk).1
      simpa [hone] using hlt
    simp only [Pipeline.respond, h.single hworkers, hone, hk0]
    simp
  · cases err with
    | true => simpa [Pipeline.respond, List.filter_append] using h.egress
    | false => simp [Pipeline.respond, List.filter_append, h.egress, length_elements hvalid]
  · cases err <;> simp [Pipeline.respond, List.filter_append, h.errors]

theorem step_conserved {p' : Pipeline} (h : Conserved p) {event : Event}
    (hstep : step grow p event = .ok p') :
    Conserved p' := by
  cases event with
  | ingress e =>
      rw [step] at hstep
      split_ifs at hstep with hcounting
      cases hstep
      exact ingress_conserved h (by simpa using hcounting) e
  | count =>
      rw [step] at hstep
      split_ifs at hstep with hcounting
      cases hstep
      exact count_conserved h hcounting
  | tryNext =>
      rw [step] at hstep
      split_ifs at hstep with hpolled
      cases hstep
      exact tryNext_conserved h (by simpa using hpolled)
  | select fired =>
      rw [step] at hstep
      split_ifs at hstep with hpolled
      cases hstep
      exact select_conserved h hpolled fired
  | receive =>
      rw [step] at hstep
      cases hch : p.ch with
      | nil => simp [hch] at hstep
      | cons envelopes ch =>
          simp only [hch] at hstep
          split_ifs at hstep with hfree
          cases hstep
          exact receive_conserved h hch hfree
  | respond k err =>
      rw [step] at hstep
      cases hk : p.sending[k]? with
      | none => simp [hk] at hstep
      | some envelopes =>
          simp only [hk] at hstep
          cases hstep
          exact respond_conserved h hk err

theorem run_conserved {p' : Pipeline} (h : Conserved p) {events : List Event}
    (hrun : Runs.run (step grow) p events = .ok p') : Conserved p' :=
  Runs.run_invariant (fun _ _ _ hs _ hstep => step_conserved hs hstep) h
    (Runs.along_of_forall (fun _ _ => trivial) p events) hrun

end invariant

section results

def Pipeline.queued (p : Pipeline) : List Envelope := p.ch.flatMap (elements p.batcher.memory)

def Pipeline.inFlight (p : Pipeline) : List Envelope :=
  p.sending.flatMap (elements p.batcher.memory)

def Pipeline.buffered (p : Pipeline) : List Envelope :=
  elements p.batcher.memory p.batcher.envelopes

def Pipeline.unread (p : Pipeline) : List Envelope := p.ingressed.drop p.streamBuffer.readIndex

def Pipeline.accepted (p : Pipeline) : List Envelope :=
  (p.responses.filter fun r => !r.2).flatMap Prod.fst

def Pipeline.refused (p : Pipeline) : List Envelope :=
  (p.responses.filter fun r => r.2).flatMap Prod.fst

variable {grow : Nat → Nat} {p : Pipeline}

theorem responses_perm (responses : List (List Envelope × Bool)) :
    (responses.flatMap Prod.fst).Perm
      ((responses.filter fun r => !r.2).flatMap Prod.fst ++
        (responses.filter fun r => r.2).flatMap Prod.fst) := by
  have hsplit := List.filter_append_perm (fun r : List Envelope × Bool => !r.2) responses
  simp only [Bool.not_not] at hsplit
  rw [← List.flatMap_append]
  exact (List.Perm.flatMap_right _ hsplit).symm

theorem Conserved.taken_perm (h : Conserved p) :
    p.taken.Perm (p.accepted ++ p.refused ++ p.inFlight ++ p.queued ++
      (floored p.batcher.batches).flatten ++
      p.buffered) := by
  have hbatches : (p.batcher.batches.flatMap (Batch.contents p.batcher.memory)).Perm
      ((sentSlices p.batcher.batches).flatMap (elements p.batcher.memory) ++
        (floored p.batcher.batches).flatten) := by
    simpa [List.flatMap_def] using (contents_perm p.batcher.memory p.batcher.batches).flatten
  have hreceived : (p.received.flatMap (elements p.batcher.memory)).Perm
      (p.responses.flatMap Prod.fst ++ p.inFlight) := by
    simpa [List.flatMap_def, Pipeline.inFlight] using h.answered.flatten
  have hanswered : (p.received.flatMap (elements p.batcher.memory)).Perm
      (p.accepted ++ p.refused ++ p.inFlight) :=
    hreceived.trans ((responses_perm p.responses).append_right _)
  rw [← h.passed, Nozzle.passed]
  refine (hbatches.trans (List.Perm.append_right _ ?_)).append_right _
  rw [h.sent, List.flatMap_append]
  exact hanswered.append_right _

theorem Conserved.places (h : Conserved p) : ∃ overwritten : List Envelope,
    p.ingressed.Perm (p.accepted ++ p.refused ++ p.inFlight ++ p.queued ++
      (floored p.batcher.batches).flatten ++ p.buffered ++ overwritten ++ p.unread) ∧
    overwritten.length = p.dropped.sum := by
  obtain ⟨overwritten, hperm, hlength⟩ := h.diode.perm
  exact ⟨overwritten, hperm.trans ((h.taken_perm.append_right _).append_right _), hlength⟩

theorem Conserved.count (h : Conserved p) :
    p.ingressed.length = p.taken.length + p.dropped.sum + p.unread.length := by
  have hcount := h.diode.accounted.count
  have hbound := h.diode.accounted.bound
  simp only [Pipeline.unread, List.length_drop] at hcount hbound ⊢
  omega

theorem Conserved.sizes (h : Conserved p) {r : List Envelope × Bool} (hr : r ∈ p.responses) :
    1 ≤ r.1.length ∧ r.1.length ≤ batchChannelSize := by
  have hmem : r.1 ∈ p.received.map (elements p.batcher.memory) :=
    h.answered.mem_iff.mpr (List.mem_append_left _ (List.mem_map_of_mem hr))
  obtain ⟨s, hs, hcontents⟩ := List.mem_map.mp hmem
  have hsent : .sent s ∈ p.batcher.batches := mem_sentSlices (h.sent ▸ List.mem_append_left _ hs)
  rw [← hcontents]
  exact h.batcher.sizes _ hsent

/-- Three envelopes: the first is delivered while the second is polled, and the
third is set and not yet counted. -/
def overlapping : List Event :=
  [.ingress (bare 1), .count, .ingress (bare 2), .tryNext, .count, .select true, .receive,
    .ingress (bare 3), .tryNext, .respond 0 false]

end results

section lossless

/-- No envelope is lost: what was not delivered is on its way, and what the
diode has not given out can still be read from it. A single worker keeps the
order. -/
structure Lossless (p : Pipeline) : Prop where
  envelopes : p.ingressed.Perm (p.accepted ++ p.inFlight ++ p.queued ++ p.buffered ++ p.unread)
  order : p.workers = 1 → p.ingressed = p.accepted ++ p.inFlight ++ p.queued ++
    p.buffered ++ p.unread
  kept : ∀ seq e, p.streamBuffer.readIndex ≤ seq → p.ingressed[seq]? = some e →
    p.streamBuffer.buffer (seq % streamBufferSize) = some ⟨e, seq⟩

/-- The writer is no lap ahead of the reader, a batch that is due finds room in
the channel, and no request fails. -/
def Quiet (p : Pipeline) : Event → Prop
  | .ingress _ => p.counting = false → p.unread.length < streamBufferSize
  | .count => True
  | .select fired => p.polled = true → due p.batcher fired = true → p.ch.length < batchChannelSize
  | .respond k err => k < p.sending.length → err = false
  | .tryNext => True
  | .receive => True

structure Calm (p : Pipeline) : Prop extends Conserved p where
  unlapped : p.unread.length ≤ streamBufferSize
  silent : p.dropped = []
  floor : floored p.batcher.batches = []
  failures : p.responses.filter (fun r => r.2) = []

variable {grow : Nat → Nat} {p : Pipeline}

theorem start_calm (workers : Nat) : Calm (start workers) where
  toConserved := start_conserved workers
  unlapped := Nat.zero_le _
  silent := rfl
  floor := rfl
  failures := rfl

theorem Calm.taken_eq (h : Calm p) : p.ingressed = p.taken ++ p.unread := by
  have hcount := h.diode.accounted.count
  rw [h.silent, List.sum_nil, Nat.add_zero] at hcount
  have htaken : p.taken = p.ingressed.take p.streamBuffer.readIndex := by
    refine h.diode.accounted.order.eq_of_length ?_
    rw [List.length_take, hcount, Nat.min_eq_left h.diode.accounted.bound]
  rw [htaken, Pipeline.unread, List.take_append_drop]

theorem contents_eq {batches : List Batch} (m : Memory Envelope) (h : floored batches = []) :
    batches.map (Batch.contents m) = (sentSlices batches).map (elements m) := by
  induction batches with
  | nil => rfl
  | cons batch batches ih =>
      cases batch with
      | sent s => exact congrArg (elements m s :: ·) (ih h)
      | dropped envelopes => cases h

theorem Calm.order (h : Calm p) (hworkers : p.workers = 1) :
    p.taken = p.accepted ++ p.inFlight ++ p.queued ++ p.buffered := by
  have haccepted : p.responses.filter (fun r => !r.2) = p.responses := by
    refine List.filter_eq_self.mpr fun r hr => ?_
    have hnot := List.filter_eq_nil_iff.mp h.failures r hr
    simpa using hnot
  rw [← h.passed, Nozzle.passed, List.flatMap_def, contents_eq _ h.floor, h.sent, List.map_append,
    List.flatten_append, h.single hworkers, List.flatten_append]
  simp only [Pipeline.accepted, haccepted, Pipeline.inFlight, Pipeline.queued, Pipeline.buffered,
    List.flatMap_def]

theorem Calm.lossless (h : Calm p) : Lossless p where
  envelopes := by
    have hperm := h.taken_perm
    rw [h.floor, Pipeline.refused, h.failures, List.flatMap_nil, List.flatten_nil, List.append_nil,
      List.append_nil]
      at hperm
    rw [h.taken_eq]
    exact hperm.append_right _
  order hworkers := by
    rw [h.taken_eq, h.order hworkers]
  kept seq e hread hentry := by
    have hkept := h.diode.represents.kept seq e hread
    have hunlapped := h.unlapped
    rw [h.size] at hkept
    simp only [Pipeline.unread, List.length_drop] at hunlapped
    refine hkept ?_ hentry
    dsimp only at hread ⊢
    omega

theorem ingress_calm (h : Calm p) (hcounting : p.counting = false) {e : Envelope}
    (hquiet : Quiet p (.ingress e)) : Calm (p.ingress e) where
  __ := h
  toConserved := ingress_conserved h.toConserved hcounting e
  unlapped := by
    have hlt : p.unread.length < streamBufferSize := hquiet hcounting
    have hbound := h.diode.accounted.bound
    simp only [Pipeline.unread, Pipeline.ingress, OneToOne.set, List.length_drop,
      List.length_append, List.length_singleton] at hlt hbound ⊢
    omega

theorem tryNext_calm (h : Calm p) (hpolled : p.polled = false) : Calm (p.tryNext grow) := by
  have hunlapped := h.unlapped
  have hlap : p.ingressed.length ≤ p.streamBuffer.readIndex + p.streamBuffer.size := by
    rw [h.size]
    simp only [Pipeline.unread, List.length_drop] at hunlapped
    omega
  obtain ⟨hnext, hunread⟩ := tryNext_in_order h.diode hlap
  refine
    { toConserved := tryNext_conserved h.toConserved hpolled
      unlapped := ?_
      silent := ?_
      floor := (congrArg floored (poll_batches _)).trans h.floor
      failures := h.failures }
  · rw [Pipeline.unread] at hunlapped
    simp only [Pipeline.unread, Pipeline.tryNext, hunread, List.length_tail]
    omega
  · simp only [Pipeline.tryNext, h.silent, hnext]
    cases (p.ingressed.drop p.streamBuffer.readIndex).head? <;> simp

theorem select_calm (h : Calm p) (hpolled : p.polled = true) {fired : Bool}
    (hquiet : Quiet p (.select fired)) :
    Calm (p.select fired) := by
  have hconserved := select_conserved h.toConserved hpolled fired
  rw [Pipeline.select] at hconserved ⊢
  by_cases hdue : due p.batcher fired = true
  · rw [if_pos hdue] at hconserved ⊢
    have hfull : p.full = false := decide_eq_false (Nat.not_le.mpr (hquiet hpolled hdue))
    have hfloor := h.floor
    refine { h with toConserved := hconserved, floor := ?_ }
    rw [floored] at hfloor
    simp [hfull, flush, floored, flooredBatch, hfloor]
  · rw [if_neg hdue] at hconserved ⊢
    exact { h with toConserved := hconserved }

theorem step_calm {p' : Pipeline} (h : Calm p) {event : Event} (hquiet : Quiet p event)
    (hstep : step grow p event = .ok p') : Calm p' := by
  have hconserved := step_conserved h.toConserved hstep
  cases event with
  | ingress e =>
      rw [step] at hstep
      split_ifs at hstep with hcounting
      cases hstep
      exact ingress_calm h (by simpa using hcounting) hquiet
  | count =>
      rw [step] at hstep
      split_ifs at hstep
      cases hstep
      exact { h with toConserved := hconserved }
  | tryNext =>
      rw [step] at hstep
      split_ifs at hstep with hpolled
      cases hstep
      exact tryNext_calm h (by simpa using hpolled)
  | select fired =>
      rw [step] at hstep
      split_ifs at hstep with hpolled
      cases hstep
      exact select_calm h hpolled hquiet
  | receive =>
      rw [step] at hstep
      cases hch : p.ch with
      | nil => simp [hch] at hstep
      | cons envelopes ch =>
          simp only [hch] at hstep
          split_ifs at hstep
          cases hstep
          exact { h with toConserved := hconserved }
  | respond k err =>
      rw [step] at hstep
      cases hk : p.sending[k]? with
      | none => simp [hk] at hstep
      | some envelopes =>
          simp only [hk] at hstep
          cases hstep
          have herr : err = false := hquiet (List.getElem?_eq_some_iff.mp hk).1
          have hfailures := h.failures
          refine { h with toConserved := hconserved, failures := ?_ }
          simp [Pipeline.respond, herr, hfailures]

theorem Conserved.losses (h : Conserved p) (hlossless : Lossless p) :
    p.refused = [] ∧ (floored p.batcher.batches).flatten = [] := by
  have hall := hlossless.envelopes.length_eq
  have htaken := h.taken_perm.length_eq
  have hcount := h.count
  simp only [List.length_append] at hall htaken
  exact ⟨List.eq_nil_of_length_eq_zero (by omega), List.eq_nil_of_length_eq_zero (by omega)⟩

theorem ingress_loses (h : Conserved p) (hcounting : p.counting = false) {e : Envelope}
    (hlap : ¬ p.unread.length < streamBufferSize) : ¬ Lossless (p.ingress e) := by
  intro hlossless
  have hconserved := ingress_conserved h hcounting e
  have hbound := h.diode.accounted.bound
  simp only [Pipeline.unread, List.length_drop, streamBufferSize] at hlap hbound
  -- the slot of the read index has been written over
  have hread : p.streamBuffer.readIndex < p.ingressed.length := by omega
  have hentry : (p.ingressed ++ [e])[p.streamBuffer.readIndex]? =
      some p.ingressed[p.streamBuffer.readIndex] := by
    rw [List.getElem?_append_left hread, List.getElem?_eq_getElem hread]
  have hslot := hlossless.kept _ _ (Nat.le_refl _) hentry
  have hrecent := (hconserved.diode.represents.recent _ _ hslot).2.2
  rw [hconserved.size] at hrecent
  simp only [Pipeline.ingress, OneToOne.set, List.length_append, List.length_singleton,
    streamBufferSize] at hrecent
  omega

theorem select_loses (h : Conserved p) (hpolled : p.polled = true) {fired : Bool}
    (hdue : due p.batcher fired = true) (hfull : ¬ p.ch.length < batchChannelSize) :
    ¬ Lossless (p.select fired) := by
  intro hlossless
  have hnil := ((select_conserved h hpolled fired).losses hlossless).2
  have hfull' : p.full = true := decide_eq_true (Nat.not_lt.mp hfull)
  rw [Pipeline.select, if_pos hdue] at hnil
  simp only [hfull', flush, if_true, floored, flooredBatch, List.filterMap_append,
    List.filterMap_cons, List.filterMap_nil, List.flatten_append, List.append_eq_nil_iff,
    List.flatten_cons] at hnil
  have hlength := length_elements h.batcher.buffer
  rw [hnil.2.1] at hlength
  exact absurd (due_length hdue) (by simp [← hlength])

theorem respond_loses (h : Conserved p) {k : Nat} {envelopes : Slice}
    (hk : p.sending[k]? = some envelopes) :
    ¬ Lossless (p.respond k envelopes true) := by
  intro hlossless
  have hconserved := respond_conserved h hk true
  have hnil := (hconserved.losses hlossless).1
  have hmem : (elements p.batcher.memory envelopes, true) ∈
      (p.respond k envelopes true).responses :=
    List.mem_append_right _ List.mem_cons_self
  have hrefused : elements p.batcher.memory envelopes = [] := by
    refine List.flatMap_eq_nil_iff.mp hnil _ (List.mem_filter.mpr ⟨hmem, rfl⟩)
  exact absurd (hconserved.sizes hmem).1 (by simp [hrefused])

theorem step_loses (h : Conserved p) {event : Event} (hquiet : ¬ Quiet p event) :
    ∃ p', step grow p event = .ok p' ∧ ¬ Lossless p' := by
  cases event with
  | ingress e =>
      simp only [Quiet, Classical.not_imp] at hquiet
      obtain ⟨hcounting, hlap⟩ := hquiet
      exact ⟨_, if_neg (by simp [hcounting]), ingress_loses h hcounting hlap⟩
  | count => exact absurd trivial hquiet
  | tryNext => exact absurd trivial hquiet
  | select fired =>
      simp only [Quiet, Classical.not_imp] at hquiet
      obtain ⟨hpolled, hdue, hfull⟩ := hquiet
      exact ⟨_, if_pos hpolled, select_loses h hpolled hdue hfull⟩
  | receive => exact absurd trivial hquiet
  | respond k err =>
      simp only [Quiet, Classical.not_imp, Bool.not_eq_false] at hquiet
      obtain ⟨hk, rfl⟩ := hquiet
      have hget := List.getElem?_eq_getElem hk
      refine ⟨p.respond k p.sending[k] true, ?_, respond_loses h hget⟩
      rw [step, hget]

/-- The exact condition for losing nothing at any point of a run. -/
theorem nozzle_lossless_iff (grow : Nat → Nat) (workers : Nat) (events : List Event) :
    (∀ initial, initial <+: events → ∀ p, Runs.run (step grow) (start workers) initial = .ok p →
      Lossless p) ↔
      Runs.Along (step grow) Quiet (start workers) events :=
  Runs.reached_iff_along (fun _ h => h.lossless)
    (fun _ _ _ h hquiet hstep => step_calm h hquiet hstep)
    (fun _ _ h hquiet => step_loses h.toConserved hquiet) (start_calm workers) events

end lossless

end LogCache.NozzlePipeline
