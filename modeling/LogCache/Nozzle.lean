import LogCache.Envelopes
import LogCache.Slices

namespace LogCache.Nozzle

open Envelopes Slices

def batchChannelSize : Nat := 512

/-- What one turn of the loop meets: the envelope of the poller, if it has one,
whether the timer has fired, and whether the channel is full. -/
structure Turn where
  polled : Option Envelope
  fired : Bool
  full : Bool

/-- A batch is in the channel, as a slice, or was dropped; of a dropped one the
envelopes are recorded, since its array is used again. -/
inductive Batch
  | sent (envelopes : Slice)
  | dropped (envelopes : List Envelope)

structure Batcher where
  memory : Memory Envelope
  envelopes : Slice
  batches : List Batch

def newBatcher : Batcher :=
  let made := make Memory.empty
  ⟨made.1, made.2, []⟩

variable (grow : Nat → Nat)

def poll (b : Batcher) : Option Envelope → Batcher
  | none => b
  | some e =>
      let appended := append grow b.memory b.envelopes e
      { b with memory := appended.1, envelopes := appended.2 }

/-- The inner `select`: into the channel, or onto the floor. -/
def flush (b : Batcher) (full : Bool) : Batcher :=
  if full then
    { b with envelopes := b.envelopes.truncate,
             batches := b.batches ++ [.dropped (elements b.memory b.envelopes)] }
  else
    let made := make b.memory
    ⟨made.1, made.2, b.batches ++ [.sent b.envelopes]⟩

def envelopeBatcher (b : Batcher) (turn : Turn) : Batcher :=
  let b := poll grow b turn.polled
  if turn.fired then if 0 < b.envelopes.length then flush b turn.full else b
  else if batchChannelSize ≤ b.envelopes.length then flush b turn.full
  else b

def run (turns : List Turn) : Batcher := turns.foldl (envelopeBatcher grow) newBatcher

/-- The envelopes of a batch, as a reader of the channel finds them in the
memory. -/
def Batch.contents (m : Memory Envelope) : Batch → List Envelope
  | .sent envelopes => elements m envelopes
  | .dropped envelopes => envelopes

section invariant

structure Sound (b : Batcher) : Prop where
  buffer : Valid b.memory b.envelopes
  separate : ∀ s, .sent s ∈ b.batches → Valid b.memory s ∧ s.array ≠ b.envelopes.array
  sizes : ∀ batch ∈ b.batches,
    1 ≤ (batch.contents b.memory).length ∧ (batch.contents b.memory).length ≤ batchChannelSize

def passed (b : Batcher) : List Envelope :=
  b.batches.flatMap (Batch.contents b.memory) ++ elements b.memory b.envelopes

variable {grow : Nat → Nat} {b : Batcher}

theorem newBatcher_sound : Sound newBatcher where
  buffer := ⟨Nat.zero_lt_one, fun i hi => absurd hi (Nat.not_lt_zero i)⟩
  separate _ h := absurd h List.not_mem_nil
  sizes _ h := absurd h List.not_mem_nil

theorem contents_congr {m m' : Memory Envelope} {batches : List Batch}
    (h : ∀ s, .sent s ∈ batches → m'.cells s.array = m.cells s.array) :
    ∀ batch ∈ batches, batch.contents m' = batch.contents m := by
  intro batch hmem
  cases batch with
  | sent s => exact elements_congr (fun i _ => congrFun (h s hmem) i) rfl
  | dropped envelopes => rfl

theorem poll_contents (h : Sound b) (polled : Option Envelope) :
    ∀ batch ∈ (poll grow b polled).batches,
      batch.contents (poll grow b polled).memory = batch.contents b.memory := by
  cases polled with
  | none => exact fun _ _ => rfl
  | some e => exact contents_congr fun s hs => append_frame (h.separate s hs).1 (h.separate s hs).2

theorem poll_batches (polled : Option Envelope) : (poll grow b polled).batches = b.batches := by
  cases polled <;> rfl

theorem poll_length (polled : Option Envelope) :
    (poll grow b polled).envelopes.length ≤ b.envelopes.length + 1 := by
  cases polled with
  | none => exact Nat.le_succ _
  | some e => exact append_length.le

theorem poll_sound (h : Sound b) (polled : Option Envelope) : Sound (poll grow b polled) := by
  have hsizes : ∀ batch ∈ (poll grow b polled).batches,
      1 ≤ (batch.contents (poll grow b polled).memory).length ∧
        (batch.contents (poll grow b polled).memory).length ≤ batchChannelSize := by
    intro batch hbatch
    rw [poll_contents h polled batch hbatch]
    rw [poll_batches] at hbatch
    exact h.sizes batch hbatch
  cases polled with
  | none => exact h
  | some e =>
      refine ⟨append_valid h.buffer, fun s hs => ?_, hsizes⟩
      obtain ⟨hvalid, hne⟩ := h.separate s hs
      refine ⟨hvalid.of_cells (append_frame hvalid hne) append_next, ?_⟩
      -- the buffer stays where it was, or moves to an array that no batch has
      have harray := (@append_array Envelope grow b.memory b.envelopes e h.buffer).2
      rcases harray with heq | hnew
      · exact heq.symm ▸ hne
      · exact (hvalid.allocated.trans_le hnew).ne

theorem poll_passed (h : Sound b) (polled : Option Envelope) :
    passed (poll grow b polled) = passed b ++ polled.toList := by
  rw [passed, List.flatMap_congr (poll_contents h polled), poll_batches]
  cases polled with
  | none => exact (List.append_nil _).symm
  | some e =>
      change _ ++ elements (append grow b.memory b.envelopes e).1
        (append grow b.memory b.envelopes e).2 = _
      rw [elements_append, passed, List.append_assoc]
      rfl

theorem flush_sound (h : Sound b) (hpos : 0 < b.envelopes.length)
    (hle : b.envelopes.length ≤ batchChannelSize) (full : Bool) : Sound (flush b full) := by
  have hlength := length_elements h.buffer
  cases full with
  | true =>
      refine ⟨⟨h.buffer.allocated, fun i hi => absurd hi (Nat.not_lt_zero i)⟩, fun s hs => ?_,
        fun batch hbatch => ?_⟩
      · refine h.separate s ((List.mem_append.mp hs).resolve_right fun hlast => ?_)
        cases List.mem_singleton.mp hlast
      · rcases List.mem_append.mp hbatch with hbatch | hlast
        · exact h.sizes batch hbatch
        · rw [List.mem_singleton.mp hlast]
          exact ⟨hlength.symm ▸ hpos, hlength.symm ▸ hle⟩
  | false =>
      refine ⟨⟨Nat.lt_succ_self _, fun i hi => absurd hi (Nat.not_lt_zero i)⟩, fun s hs => ?_,
        fun batch hbatch => ?_⟩
      · have hvalid : Valid b.memory s := by
          rcases List.mem_append.mp hs with hs | hlast
          · exact (h.separate s hs).1
          · cases List.mem_singleton.mp hlast
            exact h.buffer
        exact ⟨hvalid.of_cells rfl (Nat.le_succ _), hvalid.allocated.ne⟩
      · rcases List.mem_append.mp hbatch with hbatch | hlast
        · exact h.sizes batch hbatch
        · rw [List.mem_singleton.mp hlast]
          exact ⟨hlength.symm ▸ hpos, hlength.symm ▸ hle⟩

theorem flush_passed (full : Bool) : passed (flush b full) = passed b := by
  cases full with
  | true =>
      change (b.batches ++ [_]).flatMap _ ++ [] = _
      rw [List.flatMap_append, List.append_nil, List.flatMap_singleton]
      rfl
  | false =>
      change (b.batches ++ [_]).flatMap _ ++ [] = _
      rw [List.flatMap_append, List.append_nil, List.flatMap_singleton]
      rfl

theorem flush_length (full : Bool) : (flush b full).envelopes.length = 0 := by
  cases full <;> rfl

end invariant

section turns

variable {grow : Nat → Nat} {b : Batcher}

structure Settled (b : Batcher) : Prop extends Sound b where
  room : b.envelopes.length < batchChannelSize

theorem envelopeBatcher_settled (h : Settled b) (turn : Turn) :
    Settled (envelopeBatcher grow b turn) ∧
      passed (envelopeBatcher grow b turn) = passed b ++ turn.polled.toList := by
  have hpoll : Sound (poll grow b turn.polled) := poll_sound h.toSound turn.polled
  have hpassed : passed (poll grow b turn.polled) = passed b ++ turn.polled.toList :=
    poll_passed h.toSound turn.polled
  have hle : (poll grow b turn.polled).envelopes.length ≤ batchChannelSize :=
    (poll_length turn.polled).trans h.room
  have hflush : ∀ hpos : 0 < (poll grow b turn.polled).envelopes.length,
      Settled (flush (poll grow b turn.polled) turn.full) ∧
        passed (flush (poll grow b turn.polled) turn.full) = passed b ++ turn.polled.toList := by
    intro hpos
    refine ⟨⟨flush_sound hpoll hpos hle turn.full, ?_⟩, (flush_passed turn.full).trans hpassed⟩
    rw [flush_length]
    exact Nat.zero_lt_succ 511
  rw [envelopeBatcher]
  split_ifs with hfired hpos hfull
  · exact hflush hpos
  · exact ⟨⟨hpoll, (Nat.le_of_not_lt hpos).trans_lt (Nat.zero_lt_succ 511)⟩, hpassed⟩
  · exact hflush ((Nat.zero_lt_succ 511).trans_le hfull)
  · exact ⟨⟨hpoll, Nat.lt_of_not_le hfull⟩, hpassed⟩

theorem foldl_settled (h : Settled b) (turns : List Turn) :
    Settled (turns.foldl (envelopeBatcher grow) b) ∧
      passed (turns.foldl (envelopeBatcher grow) b) = passed b ++ turns.filterMap Turn.polled := by
  induction turns generalizing b with
  | nil => exact ⟨h, (List.append_nil _).symm⟩
  | cons turn turns ih =>
      obtain ⟨hstep, hpassed⟩ := @envelopeBatcher_settled grow b h turn
      obtain ⟨hrest, hpassed'⟩ := ih hstep
      refine ⟨hrest, ?_⟩
      rw [List.foldl_cons, hpassed', hpassed, List.append_assoc]
      cases hpolled : turn.polled with
      | none => rw [List.filterMap_cons_none hpolled]; rfl
      | some e => rw [List.filterMap_cons_some hpolled]; rfl

end turns

end LogCache.Nozzle
