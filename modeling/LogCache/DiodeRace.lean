import LogCache.Diode
import LogCache.Envelopes
import LogCache.Runs

namespace LogCache.DiodeRace

open Envelopes Diode

/-- Where a call of `Set` is between two accesses to what the calls share. The
increment of the write index reads it and writes it. -/
inductive Pc
  | idx
  | seq (idx : Nat)
  | load (idx : Nat) (newBucket : Bucket Nat)
  | store (idx : Nat) (newBucket : Bucket Nat) (loaded : Nat)
  | publish (idx : Nat) (newBucket : Bucket Nat)
  | done
deriving DecidableEq

/-- The calls that handlers make at the same time, in the order of their
beginning, and the one reader. An envelope is named by the number of its call. -/
structure Sys where
  diode : OneToOne Nat
  calls : List Pc
  given : List Nat
  missed : Nat

def start (size : Nat) : Sys := ⟨newOneToOne size, [], [], 0⟩

inductive Event
  | begin
  | advance (k : Nat)
  | tryNext

def advance (d : OneToOne Nat) (k : Nat) : Pc → Option (OneToOne Nat × Pc)
  | .idx => some (d, .seq (d.writeIndex % d.size))
  | .seq idx => some (d, .load idx ⟨k, d.writeIndex⟩)
  | .load idx newBucket => some (d, .store idx newBucket d.writeIndex)
  | .store idx newBucket loaded =>
      some ({ d with writeIndex := loaded + 1 }, .publish idx newBucket)
  | .publish idx newBucket =>
      some ({ d with buffer := Function.update d.buffer idx (some newBucket) }, .done)
  | .done => none

def Sys.tryNext (s : Sys) : Sys :=
  { s with
    diode := s.diode.tryNext.2
    given := s.given ++ (s.diode.tryNext.1.map Prod.fst).toList
    missed := s.missed + s.diode.tryNext.1.elim 0 Prod.snd }

def step (s : Sys) : Event → Except Stop Sys
  | .begin => .ok { s with calls := s.calls ++ [.idx] }
  | .advance k =>
      match s.calls[k]?.bind (advance s.diode k) with
      | none => .error .disabled
      | some (d, pc) => .ok { s with diode := d, calls := s.calls.set k pc }
  | .tryNext => .ok s.tryNext

theorem advance_cases {s s' : Sys} {k : Nat} (h : step s (.advance k) = .ok s') :
    ∃ pc d pc', s.calls[k]? = some pc ∧ advance s.diode k pc = some (d, pc') ∧
      s' = { s with diode := d, calls := s.calls.set k pc' } := by
  rw [step] at h
  cases hpc : s.calls[k]? with
  | none => simp [hpc] at h
  | some pc =>
      cases hadvance : advance s.diode k pc with
      | none => simp [hpc, hadvance] at h
      | some next =>
          simp only [hpc, hadvance, Option.bind_some, Except.ok.injEq] at h
          exact ⟨pc, next.1, next.2, rfl, hadvance, h.symm⟩

section once

def Pc.newBucket : Pc → Option (Bucket Nat)
  | .load _ b | .store _ b _ | .publish _ b => some b
  | .idx | .seq _ | .done => none

structure Once (s : Sys) : Prop where
  given : s.given.Nodup
  ended : ∀ k ∈ s.given, s.calls[k]? = some .done
  slots : ∀ i b, s.diode.buffer i = some b → s.calls[b.data]? = some .done ∧ b.data ∉ s.given
  apart : ∀ i j b b', s.diode.buffer i = some b → s.diode.buffer j = some b' →
    b.data = b'.data → i = j
  hands : ∀ k (pc : Pc) b, s.calls[k]? = some pc → pc.newBucket = some b → b.data = k

theorem start_once (size : Nat) : Once (start size) where
  given := List.nodup_nil
  ended _ h := absurd h List.not_mem_nil
  slots _ _ h := by cases h
  apart _ _ _ _ h := by cases h
  hands _ _ _ h := by cases h

variable {s : Sys}

theorem begin_once (h : Once s) : Once { s with calls := s.calls ++ [.idx] } := by
  have hkept : ∀ (k : Nat) (pc : Pc), s.calls[k]? = some pc →
      (s.calls ++ [.idx])[k]? = some pc := by
    intro k pc hk
    rw [List.getElem?_append_left (List.getElem?_eq_some_iff.mp hk).1, hk]
  refine ⟨h.given, fun k hk => hkept _ _ (h.ended k hk), fun i b hb => ?_, h.apart,
    fun k pc b hk hb => ?_⟩
  · exact ⟨hkept _ _ (h.slots i b hb).1, (h.slots i b hb).2⟩
  · rcases Nat.lt_or_ge k s.calls.length with hlt | hge
    · dsimp only at hk
      rw [List.getElem?_append_left hlt] at hk
      exact h.hands k pc b hk hb
    · dsimp only at hk
      rw [List.getElem?_append_right hge, List.getElem?_singleton] at hk
      split_ifs at hk
      cases hk
      cases hb

theorem not_stored (h : Once s) {k : Nat} {pc : Pc} (hk : s.calls[k]? = some pc)
    (hpc : pc ≠ .done) :
    k ∉ s.given ∧ ∀ i b, s.diode.buffer i = some b → b.data ≠ k := by
  constructor
  · intro hmem
    have hdone := h.ended k hmem
    rw [hk] at hdone
    exact hpc (Option.some.inj hdone)
  · rintro i b hb rfl
    have hdone := (h.slots i b hb).1
    rw [hk] at hdone
    exact hpc (Option.some.inj hdone)

theorem advance_once (h : Once s) {k : Nat} {pc pc' : Pc} (hk : s.calls[k]? = some pc)
    (hpc : pc ≠ .done) (hbucket : ∀ b, pc'.newBucket = some b → b.data = k) (d : OneToOne Nat)
    (hd : d.buffer = s.diode.buffer) :
    Once { s with diode := d, calls := s.calls.set k pc' } := by
  obtain ⟨hgiven, hslots⟩ := not_stored h hk hpc
  have hother : ∀ j : Nat, j ≠ k → (s.calls.set k pc')[j]? = s.calls[j]? :=
    fun j hj => List.getElem?_set_ne hj.symm
  refine ⟨h.given, fun j hj => ?_, fun i b hb => ?_, ?_, fun j pc'' b hj hb => ?_⟩
  · rw [hother j (fun heq => hgiven (heq ▸ hj))]
    exact h.ended j hj
  · dsimp only at hb ⊢
    rw [hd] at hb
    rw [hother _ (hslots i b hb)]
    exact h.slots i b hb
  · dsimp only
    rw [hd]
    exact h.apart
  · by_cases hjk : j = k
    · dsimp only at hj
      rw [hjk, List.getElem?_set_self (List.getElem?_eq_some_iff.mp hk).1] at hj
      cases hj
      exact hjk.symm ▸ hbucket b hb
    · exact h.hands j pc'' b ((hother j hjk).symm.trans hj) hb

theorem publish_once (h : Once s) {k idx : Nat} {b : Bucket Nat}
    (hk : s.calls[k]? = some (.publish idx b)) :
    Once { s with diode := { s.diode with buffer := Function.update s.diode.buffer idx (some b) },
                  calls := s.calls.set k .done } := by
  obtain ⟨hgiven, hslots⟩ := not_stored h hk (by simp)
  have hdata : b.data = k := h.hands k _ b hk rfl
  have hlt := (List.getElem?_eq_some_iff.mp hk).1
  have hdone : ∀ j : Nat, s.calls[j]? = some Pc.done →
      (s.calls.set k Pc.done)[j]? = some Pc.done := by
    intro j hj
    by_cases hjk : j = k
    · rw [hjk, List.getElem?_set_self hlt]
    · rw [List.getElem?_set_ne (Ne.symm hjk), hj]
  refine ⟨h.given, fun j hj => hdone j (h.ended j hj), fun i b' hb => ?_,
    fun i j b' b'' hi hj heq => ?_, fun j pc b' hj hb => ?_⟩
  · dsimp only at hb ⊢
    by_cases hidx : i = idx
    · rw [hidx, Function.update_self] at hb
      cases hb
      rw [hdata]
      exact ⟨List.getElem?_set_self hlt, hgiven⟩
    · rw [Function.update_of_ne hidx] at hb
      exact ⟨hdone _ (h.slots i b' hb).1, (h.slots i b' hb).2⟩
  · dsimp only at hi hj
    by_cases hiidx : i = idx <;> by_cases hjidx : j = idx
    · rw [hiidx, hjidx]
    · rw [hiidx, Function.update_self] at hi
      rw [Function.update_of_ne hjidx] at hj
      cases hi
      exact absurd (heq.symm.trans hdata) (hslots j b'' hj)
    · rw [Function.update_of_ne hiidx] at hi
      rw [hjidx, Function.update_self] at hj
      cases hj
      exact absurd (heq.trans hdata) (hslots i b' hi)
    · rw [Function.update_of_ne hiidx] at hi
      rw [Function.update_of_ne hjidx] at hj
      exact h.apart i j b' b'' hi hj heq
  · by_cases hjk : j = k
    · dsimp only at hj
      rw [hjk, List.getElem?_set_self hlt] at hj
      cases hj
      cases hb
    · exact h.hands j pc b' ((List.getElem?_set_ne (Ne.symm hjk)).symm.trans hj) hb

theorem tryNext_cases (d : OneToOne Nat) :
    d.tryNext.2.buffer = Function.update d.buffer (d.readIndex % d.size) none ∧
      ∀ k, d.tryNext.1.map Prod.fst = some k → ∃ b, d.buffer (d.readIndex % d.size) = some b ∧
        b.data = k := by
  rw [OneToOne.tryNext]
  cases d.buffer (d.readIndex % d.size) with
  | none => exact ⟨rfl, fun k hk => by cases hk⟩
  | some b =>
      dsimp only
      split_ifs
      · exact ⟨rfl, fun k hk => by cases hk⟩
      · exact ⟨rfl, fun k hk => ⟨b, rfl, Option.some.inj hk⟩⟩
      · exact ⟨rfl, fun k hk => ⟨b, rfl, Option.some.inj hk⟩⟩

theorem tryNext_once (h : Once s) : Once s.tryNext := by
  obtain ⟨hbuffer, hnext⟩ := tryNext_cases s.diode
  have hkept : ∀ i b, s.tryNext.diode.buffer i = some b → i ≠ s.diode.readIndex % s.diode.size ∧
      s.diode.buffer i = some b := by
    intro i b hb
    rw [Sys.tryNext] at hb
    dsimp only at hb
    rw [hbuffer] at hb
    by_cases hi : i = s.diode.readIndex % s.diode.size
    · rw [hi, Function.update_self] at hb
      cases hb
    · exact ⟨hi, by rwa [Function.update_of_ne hi] at hb⟩
  -- what the reader takes was in the one slot that it empties
  have htaken : ∀ k ∈ (s.diode.tryNext.1.map Prod.fst).toList, s.calls[k]? = some .done ∧
      k ∉ s.given ∧
      ∀ i b, s.tryNext.diode.buffer i = some b → b.data ≠ k := by
    intro k hk
    obtain ⟨b, hb, rfl⟩ := hnext k (Option.mem_toList.mp hk)
    refine ⟨(h.slots _ b hb).1, (h.slots _ b hb).2, fun i b' hb' heq => ?_⟩
    obtain ⟨hi, hold⟩ := hkept i b' hb'
    exact hi (h.apart i _ b' b hold hb heq)
  refine ⟨?_, fun k hk => ?_, fun i b hb => ?_, fun i j b b' hi hj => ?_, h.hands⟩
  · refine List.nodup_append.mpr ⟨h.given, ?_, ?_⟩
    · cases s.diode.tryNext.1 <;> simp
    · rintro k hk k' hk' rfl
      exact (htaken k hk').2.1 hk
  · rcases List.mem_append.mp hk with hk | hk
    · exact h.ended k hk
    · exact (htaken k hk).1
  · have hold := (hkept i b hb).2
    refine ⟨(h.slots i b hold).1, fun hmem => ?_⟩
    rcases List.mem_append.mp hmem with hmem | hmem
    · exact (h.slots i b hold).2 hmem
    · exact (htaken _ hmem).2.2 i b hb rfl
  · exact h.apart i j b b' (hkept i b hi).2 (hkept j b' hj).2

theorem step_once {s' : Sys} (h : Once s) {event : Event} (hstep : step s event = .ok s') :
    Once s' := by
  cases event with
  | begin =>
      cases hstep
      exact begin_once h
  | tryNext =>
      cases hstep
      exact tryNext_once h
  | advance k =>
      obtain ⟨pc, d, pc', hk, hadvance, rfl⟩ := advance_cases hstep
      cases pc with
      | done => cases hadvance
      | idx =>
          cases hadvance
          exact advance_once h hk (by simp) (fun b hb => by cases hb) _ rfl
      | seq idx =>
          cases hadvance
          exact advance_once h hk (by simp) (fun b hb => by cases hb; rfl) _ rfl
      | load idx newBucket =>
          cases hadvance
          exact advance_once h hk (by simp) (fun b hb => by cases hb; exact h.hands k _ _ hk rfl) _
            rfl
      | store idx newBucket loaded =>
          cases hadvance
          exact advance_once h hk (by simp) (fun b hb => by cases hb; exact h.hands k _ _ hk rfl) _
            rfl
      | publish idx newBucket =>
          cases hadvance
          exact publish_once h hk

theorem run_once {s' : Sys} (h : Once s) {events : List Event}
    (hrun : Runs.run step s events = .ok s') : Once s' :=
  Runs.run_invariant (fun _ _ _ hs _ hstep => step_once hs hstep) h
    (Runs.along_of_forall (fun _ _ => trivial) s events) hrun

end once

section apart

/-- A call begins only when the calls before it have ended. -/
def Apart (s : Sys) : Event → Prop
  | .begin => ∀ pc ∈ s.calls, pc = .done
  | .advance _ => True
  | .tryNext => True

instance decidableApart (s : Sys) : ∀ event, Decidable (Apart s event)
  | .begin => inferInstanceAs (Decidable (∀ pc ∈ s.calls, pc = .done))
  | .advance _ => inferInstanceAs (Decidable True)
  | .tryNext => inferInstanceAs (Decidable True)

section atomic

def Sys.setWhole (s : Sys) : Sys :=
  { s with diode := s.diode.set s.calls.length, calls := s.calls ++ [.done] }

inductive Op
  | set
  | tryNext

def atomically (s : Sys) : Op → Except Stop Sys
  | .set => .ok s.setWhole
  | .tryNext => .ok s.tryNext

structure Between (s : Sys) (n : Nat) : Prop where
  calls : s.calls = List.replicate n .done
  holds : Holds s.diode (List.range n) s.given s.missed

theorem Between.writeIndex {s : Sys} {n : Nat} (h : Between s n) : s.diode.writeIndex = n := by
  rw [h.holds.represents.written, List.length_range]

theorem atomically_between {s s' : Sys} {n : Nat} (h : Between s n) {op : Op}
    (hstep : atomically s op = .ok s') : ∃ n, Between s' n := by
  cases op with
  | set =>
      cases hstep
      have hcalls : s.calls.length = n := by rw [h.calls, List.length_replicate]
      refine ⟨n + 1, ?_, ?_⟩
      · simp only [Sys.setWhole, h.calls, List.replicate_succ']
      · rw [List.range_succ]
        simp only [Sys.setWhole, hcalls]
        exact set_holds h.holds n
  | tryNext =>
      cases hstep
      exact ⟨n, h.calls, tryNext_holds h.holds⟩

theorem run_between {size : Nat} (hsize : 0 < size) {ops : List Op} {s : Sys}
    (hrun : Runs.run atomically (start size) ops = .ok s) : ∃ n, Between s n :=
  Runs.run_invariant (I := fun s => ∃ n, Between s n)
    (fun _ _ _ ⟨_, hs⟩ _ hstep => atomically_between hs hstep)
    ⟨0, rfl, newOneToOne_holds hsize⟩ (Runs.along_of_forall (fun _ _ => trivial) _ _) hrun

end atomic

def InCall (d : OneToOne Nat) (n : Nat) : Pc → Prop
  | .idx => d.writeIndex = n
  | .seq idx => d.writeIndex = n ∧ idx = n % d.size
  | .load idx b => d.writeIndex = n ∧ idx = n % d.size ∧ b = ⟨n, n⟩
  | .store idx b loaded => d.writeIndex = n ∧ idx = n % d.size ∧ b = ⟨n, n⟩ ∧ loaded = n
  | .publish idx b => d.writeIndex = n + 1 ∧ idx = n % d.size ∧ b = ⟨n, n⟩
  | .done => False

def before (d : OneToOne Nat) (n : Nat) : OneToOne Nat := { d with writeIndex := n }

structure Within (s t : Sys) (pc : Pc) : Prop where
  calls : s.calls = t.calls ++ [pc]
  call : InCall s.diode t.calls.length pc
  diode : t.diode = before s.diode t.calls.length
  given : t.given = s.given
  missed : t.missed = s.missed

/-- The calls that are apart have done what they do in one step each, but for
the last one. -/
def Follows (size : Nat) (s : Sys) : Prop :=
  ∃ ops t, Runs.run atomically (start size) ops = .ok t ∧ (s = t ∨ ∃ pc, Within s t pc)

theorem tryNext_before (d : OneToOne Nat) (n : Nat) :
    (before d n).tryNext = (d.tryNext.1, before d.tryNext.2 n) := by
  simp only [OneToOne.tryNext, before]
  cases d.buffer (d.readIndex % d.size) with
  | none => rfl
  | some b =>
      by_cases hold : b.seq < d.readIndex <;> by_cases hnew : d.readIndex < b.seq <;>
        simp [hold, hnew]

theorem tryNext_inCall {d : OneToOne Nat} {n : Nat} {pc : Pc} (h : InCall d n pc) :
    InCall d.tryNext.2 n pc := by
  have hsize : d.tryNext.2.size = d.size := tryNext_size d
  have hindex : d.tryNext.2.writeIndex = d.writeIndex := by
    rw [OneToOne.tryNext]
    cases d.buffer (d.readIndex % d.size) with
    | none => rfl
    | some b =>
        dsimp only
        split_ifs <;> rfl
  cases pc with
  | done => cases h
  | idx | seq _ | load _ _ | store _ _ _ | publish _ _ => simpa [InCall, hsize, hindex] using h

variable {size : Nat} {s : Sys}

theorem start_follows : Follows size (start size) := ⟨[], _, rfl, .inl rfl⟩

theorem tryNext_follows (h : Follows size s) : Follows size s.tryNext := by
  obtain ⟨ops, t, hrun, rfl | ⟨pc, hwithin⟩⟩ := h
  · exact ⟨ops ++ [.tryNext], _, Runs.run_trans hrun rfl, .inl rfl⟩
  · refine ⟨ops ++ [.tryNext], t.tryNext, Runs.run_trans hrun rfl, .inr ⟨pc, ?_⟩⟩
    refine ⟨hwithin.calls, tryNext_inCall hwithin.call, ?_, ?_, ?_⟩
    all_goals simp only [Sys.tryNext, hwithin.diode, tryNext_before, hwithin.given, hwithin.missed]

theorem begin_follows (hsize : 0 < size) (h : Follows size s) (hapart : Apart s .begin) :
    Follows size { s with calls := s.calls ++ [.idx] } := by
  obtain ⟨ops, t, hrun, rfl | ⟨pc, hwithin⟩⟩ := h
  · obtain ⟨n, hbetween⟩ := run_between hsize hrun
    have hindex : s.diode.writeIndex = s.calls.length := by
      rw [hbetween.writeIndex, hbetween.calls, List.length_replicate]
    exact ⟨ops, s, hrun, .inr ⟨.idx, rfl, hindex, by rw [before, ← hindex], rfl, rfl⟩⟩
  · have hdone : pc = .done := hapart pc (by simp [hwithin.calls])
    exact absurd (hdone ▸ hwithin.call) (by simp [InCall])

theorem advance_follows {t : Sys} {k : Nat} {pc pc' : Pc} {d : OneToOne Nat} {ops : List Op}
    (hrun : Runs.run atomically (start size) ops = .ok t) (h : Within s t pc)
    (hadvance : advance s.diode k pc = some (d, pc')) (hk : k = t.calls.length) :
    Follows size { s with diode := d, calls := s.calls.set k pc' } := by
  obtain ⟨hcalls, hcall, hdiode, hgiven, hmissed⟩ := h
  have hset : s.calls.set k pc' = t.calls ++ [pc'] := by
    rw [hcalls, hk]
    simp
  subst hk
  cases pc with
  | done => cases hcall
  | idx =>
      cases hadvance
      refine ⟨ops, t, hrun, .inr ⟨_, hset, ⟨hcall, ?_⟩, hdiode, hgiven, hmissed⟩⟩
      rw [show s.diode.writeIndex = t.calls.length from hcall]
  | seq idx =>
      cases hadvance
      obtain ⟨hindex, hidx⟩ := hcall
      exact ⟨ops, t, hrun, .inr ⟨_, hset, ⟨hindex, hidx, by rw [hindex]⟩, hdiode, hgiven, hmissed⟩⟩
  | load idx b =>
      cases hadvance
      obtain ⟨hindex, hidx, hb⟩ := hcall
      exact ⟨ops, t, hrun, .inr ⟨_, hset, ⟨hindex, hidx, hb, hindex⟩, hdiode, hgiven, hmissed⟩⟩
  | store idx b loaded =>
      cases hadvance
      obtain ⟨hindex, hidx, hb, hloaded⟩ := hcall
      refine ⟨ops, t, hrun, .inr ⟨_, hset, ⟨?_, hidx, hb⟩, hdiode, hgiven, hmissed⟩⟩
      exact congrArg (· + 1) hloaded
  | publish idx b =>
      cases hadvance
      obtain ⟨hindex, rfl, rfl⟩ := hcall
      refine ⟨ops ++ [.set], t.setWhole, Runs.run_trans hrun rfl, .inl ?_⟩
      simp only [Sys.setWhole, hset, hdiode, OneToOne.set, before, ← hindex, hgiven, hmissed]

theorem step_follows (hsize : 0 < size) {s' : Sys} (h : Follows size s) {event : Event}
    (hapart : Apart s event) (hstep : step s event = .ok s') : Follows size s' := by
  cases event with
  | begin =>
      cases hstep
      exact begin_follows hsize h hapart
  | tryNext =>
      cases hstep
      exact tryNext_follows h
  | advance k =>
      obtain ⟨pc, d, pc', hk, hadvance, rfl⟩ := advance_cases hstep
      have hdone : pc ≠ .done := by
        rintro rfl
        cases hadvance
      obtain ⟨ops, t, hrun, ht⟩ := h
      obtain ⟨n, hbetween⟩ := run_between hsize hrun
      rcases ht with rfl | ⟨pc'', hwithin⟩
      · have hmem := List.mem_of_getElem? hk
        rw [hbetween.calls] at hmem
        exact absurd (List.eq_of_mem_replicate hmem) hdone
      · -- the calls before the last have ended
        have hkn : k = t.calls.length := by
          have hlt := (List.getElem?_eq_some_iff.mp hk).1
          rw [hwithin.calls, List.length_append, List.length_singleton] at hlt
          by_contra hne
          rw [hwithin.calls, List.getElem?_append_left (by omega), hbetween.calls] at hk
          exact hdone (List.eq_of_mem_replicate (List.mem_of_getElem? hk))
        have hpc : pc'' = pc := by
          rw [hwithin.calls, hkn] at hk
          simpa using hk
        exact advance_follows hrun (hpc ▸ hwithin) hadvance hkn

/-- Calls that do not overlap are each one step, at the store of the bucket: a
run of theirs ends as one does in which every call is made at once. -/
theorem apart_atomic (hsize : 0 < size) {events : List Event}
    (hapart : Runs.Along step Apart (start size) events)
    (hrun : Runs.run step (start size) events = .ok s) (hdone : ∀ pc ∈ s.calls, pc = .done) :
    ∃ ops, Runs.run atomically (start size) ops = .ok s := by
  obtain ⟨ops, t, hops, rfl | ⟨pc, hwithin⟩⟩ :=
    Runs.run_invariant (fun _ _ _ hs hap hstep => step_follows hsize hs hap hstep) start_follows
      hapart hrun
  · exact ⟨ops, hops⟩
  · have hpc : pc = .done := hdone pc (by simp [hwithin.calls])
    exact absurd (hpc ▸ hwithin.call) (by simp [InCall])

/-- However the calls overlap, no envelope is given out twice or before its
call has ended. Calls that are apart are given out in order, and the reader
misses none that is not counted. -/
theorem sets_at_most_once (size : Nat) (events : List Event) (s : Sys) (hsize : 0 < size)
    (hrun : Runs.run step (start size) events = .ok s) :
    s.given.Nodup ∧ (∀ k ∈ s.given, s.calls[k]? = some .done) ∧
      (Runs.Along step Apart (start size) events → (∀ pc ∈ s.calls, pc = .done) →
        s.given.Pairwise (· < ·) ∧
          (s.diode.tryNext.1 = none → s.given.length + s.missed = s.calls.length)) := by
  have honce := run_once (start_once size) hrun
  refine ⟨honce.given, honce.ended, fun hapart hdone => ?_⟩
  obtain ⟨ops, hops⟩ := apart_atomic hsize hapart hrun hdone
  obtain ⟨n, hbetween⟩ := run_between hsize hops
  have horder := hbetween.holds.accounted.order.trans (List.take_sublist _ _)
  refine ⟨List.Pairwise.sublist horder List.pairwise_lt_range, fun hnext => ?_⟩
  rw [count_of_empty hbetween.holds hnext, hbetween.calls, List.length_range, List.length_replicate]

def whole (k : Nat) : List Event := .begin :: List.replicate 5 (.advance k)

def twoApart : List Event := whole 0 ++ .tryNext :: whole 1 ++ [.tryNext]

theorem sets_at_most_once_two : ∃ s, Runs.run step (start 4) twoApart = .ok s ∧
    Runs.Along step Apart (start 4) twoApart ∧ (∀ pc ∈ s.calls, pc = .done) ∧ s.given = [0, 1] ∧
    s.given.Pairwise (· < ·) := by
  have hapart : Runs.Along step Apart (start 4) twoApart := by decide
  refine ⟨_, rfl, hapart, by decide, rfl, ?_⟩
  exact ((sets_at_most_once 4 twoApart _ (by decide) rfl).2.2 hapart (by decide)).1

end apart

section race

variable {s : Sys}

theorem step_advance {k : Nat} {pc pc' : Pc} {d : OneToOne Nat} (hk : s.calls[k]? = some pc)
    (hadvance : advance s.diode k pc = some (d, pc')) :
    step s (.advance k) = .ok { s with diode := d, calls := s.calls.set k pc' } := by
  rw [step, hk, Option.bind_some, hadvance]

theorem run_whole (s : Sys) : Runs.run step s (whole s.calls.length) =
    .ok { s with diode := s.diode.set s.calls.length, calls := s.calls ++ [.done] } := by
  have hget : ∀ pc : Pc, (s.calls ++ [pc])[s.calls.length]? = some pc := by simp
  have hset : ∀ pc pc' : Pc, (s.calls ++ [pc]).set s.calls.length pc' = s.calls ++ [pc'] := by simp
  simp only [whole, List.replicate_succ, List.replicate_zero]
  rw [Runs.run_cons_of_ok rfl]
  iterate 5
    rw [Runs.run_cons_of_ok (step_advance (hget _) rfl)]
    dsimp only
    rw [hset]
  rfl

def wholes (k n : Nat) : List Event := (List.range' k n).flatMap whole

theorem run_wholes (n : Nat) (s : Sys) : Runs.run step s (wholes s.calls.length n) =
    .ok { s with diode := (List.range' s.calls.length n).foldl OneToOne.set s.diode,
                 calls := s.calls ++ List.replicate n .done } := by
  induction n generalizing s with
  | zero => simp [wholes, Runs.run]
  | succ n ih =>
      have hrest := ih { s with diode := s.diode.set s.calls.length, calls := s.calls ++ [.done] }
      simp only [List.length_append, List.length_singleton] at hrest
      rw [wholes, List.range'_succ, List.flatMap_cons]
      refine Runs.run_trans (run_whole s) (hrest.trans ?_)
      simp [List.replicate_succ]

theorem foldl_set_buffer {xs : List Nat} {d : OneToOne Nat} {i : Nat}
    (h : ∀ w, d.writeIndex ≤ w → w < d.writeIndex + xs.length → w % d.size ≠ i) :
    (xs.foldl OneToOne.set d).buffer i = d.buffer i ∧
      (xs.foldl OneToOne.set d).readIndex = d.readIndex ∧
      (xs.foldl OneToOne.set d).size = d.size := by
  induction xs generalizing d with
  | nil => exact ⟨rfl, rfl, rfl⟩
  | cons x xs ih =>
      rw [List.length_cons] at h
      have hslot : i ≠ d.writeIndex % d.size := (h d.writeIndex (Nat.le_refl _) (by omega)).symm
      obtain ⟨hbuffer, hread, hsize⟩ := @ih (d.set x) fun w hle hlt =>
        h w (Nat.le_of_succ_le hle) (by simp only [OneToOne.set] at hlt; omega)
      refine ⟨hbuffer.trans ?_, hread, hsize⟩
      exact Function.update_of_ne hslot _ _

theorem foldl_set_holds {d : OneToOne Nat} {written given : List Nat} {missed : Nat}
    (h : Holds d written given missed) (xs : List Nat) :
    Holds (xs.foldl OneToOne.set d) (written ++ xs) given missed := by
  induction xs generalizing d written with
  | nil => simpa using h
  | cons x xs ih =>
      have hrest := ih (set_holds h x)
      simpa using hrest

theorem run_reads {written : List Nat} (h : Holds s.diode written s.given s.missed)
    (hlap : written.length ≤ s.diode.readIndex + s.diode.size) :
    ∃ s', Runs.run step s (List.replicate (written.drop s.diode.readIndex).length .tryNext) =
      .ok s' ∧
      s'.calls = s.calls ∧ s'.given = s.given ++ written.drop s.diode.readIndex ∧
        s'.missed = s.missed ∧
      s'.diode.size = s.diode.size ∧ s'.diode.readIndex = written.length ∧
      ∀ i, s.diode.buffer i = none → s'.diode.buffer i = none := by
  obtain ⟨unread, hunread⟩ : ∃ unread, written.drop s.diode.readIndex = unread := ⟨_, rfl⟩
  induction unread generalizing s with
  | nil =>
      have hle := List.drop_eq_nil_iff.mp hunread
      rw [hunread]
      exact ⟨s, rfl, rfl, by simp, rfl, rfl, Nat.le_antisymm h.accounted.bound hle, fun _ hi => hi⟩
  | cons k rest ih =>
      obtain ⟨hnext, htail⟩ := tryNext_in_order h hlap
      rw [hunread] at hnext htail
      have hnext' : s.diode.tryNext.1 = some (k, 0) := hnext
      have htail' : written.drop s.tryNext.diode.readIndex = rest := htail
      have hgiven : s.tryNext.given = s.given ++ [k] := by simp [Sys.tryNext, hnext']
      have hmissed : s.tryNext.missed = s.missed := by simp [Sys.tryNext, hnext']
      have hsize : s.tryNext.diode.size = s.diode.size := tryNext_size s.diode
      have hholds : Holds s.tryNext.diode written s.tryNext.given s.tryNext.missed :=
        tryNext_holds h
      have hlap' : written.length ≤ s.tryNext.diode.readIndex + s.tryNext.diode.size := by
        have hlength := congrArg List.length htail'
        have hlength' := congrArg List.length hunread
        simp only [List.length_drop, List.length_cons] at hlength hlength'
        omega
      obtain ⟨s', hrun, hcalls, hgiven', hmissed', hsize', hread, hbuffer⟩ := ih hholds hlap' htail'
      rw [htail'] at hrun hgiven'
      rw [hunread]
      refine ⟨s', (Runs.run_cons_of_ok rfl _).trans hrun, hcalls, ?_, hmissed'.trans hmissed,
        hsize'.trans hsize, hread, fun i hi => hbuffer i ?_⟩
      · rw [hgiven', hgiven, List.append_assoc, List.singleton_append]
      · change s.diode.tryNext.2.buffer i = none
        rw [(tryNext_cases s.diode).1, Function.update_apply, hi, ite_self]

theorem slot_ne {size w n : Nat} (hw : w < n) (hlt : n < size) : w % size ≠ n := by
  rw [Nat.mod_eq_of_lt (Nat.lt_trans hw hlt)]
  exact Nat.ne_of_lt hw

/-- The first call is made up to the store of the write index. Then `n` whole
calls follow, and as many reads. -/
def heldUp (n : Nat) : List Event :=
  [.begin, .advance 0, .advance 0, .advance 0] ++ (wholes 1 n ++ List.replicate n .tryNext)

theorem run_heldUp {size n : Nat} (hlt : n < size) :
    ∃ s, Runs.run step (start size) (heldUp n) = .ok s ∧
    s.calls = .store (0 % size) ⟨0, 0⟩ 0 :: List.replicate n .done ∧ s.given.length = n ∧
      s.missed = 0 ∧
    s.diode.size = size ∧ s.diode.readIndex = n ∧ s.diode.buffer n = none := by
  let held : Sys := ⟨newOneToOne size, [.store (0 % size) ⟨0, 0⟩ 0], [], 0⟩
  have hheld : Runs.run step (start size) [.begin, .advance 0, .advance 0, .advance 0] = .ok held :=
    rfl
  have hwholes := run_wholes n held
  have hholds := foldl_set_holds (newOneToOne_holds (Nat.zero_lt_of_lt hlt)) (List.range' 1 n)
  obtain ⟨hnone, hindex, hsize⟩ := @foldl_set_buffer (List.range' 1 n) (newOneToOne size) n
    fun w _ hw => slot_ne (by simpa [newOneToOne] using hw) hlt
  have hindex' : ((List.range' 1 n).foldl OneToOne.set (newOneToOne size)).readIndex = 0 := hindex
  have hsize' : ((List.range' 1 n).foldl OneToOne.set (newOneToOne size)).size = size := hsize
  obtain ⟨s, hreads, hcalls, hgiven, hmissed, hsize'', hread, hbuffer⟩ :=
    @run_reads ⟨(List.range' 1 n).foldl OneToOne.set (newOneToOne size),
      .store (0 % size) ⟨0, 0⟩ 0 :: List.replicate n .done, [], 0⟩ (List.range' 1 n) hholds
      (by simp only [hindex', hsize', List.length_range']; omega)
  simp only [hindex', List.drop_zero, List.nil_append, List.length_range'] at hgiven hread hreads
  refine ⟨s, Runs.run_trans hheld (Runs.run_trans hwholes hreads), hcalls, ?_, hmissed,
    hsize''.trans hsize', hread, hbuffer n hnone⟩
  rw [hgiven, List.length_range']

theorem run_setBack {size n : Nat} {s : Sys} (hpos : 0 < n) (hlt : n < size)
    (hcalls : s.calls = .store (0 % size) ⟨0, 0⟩ 0 :: List.replicate n .done)
    (hsize : s.diode.size = size) (hread : s.diode.readIndex = n)
    (hnone : s.diode.buffer n = none) :
    ∃ s', Runs.run step s ([.advance 0, .advance 0] ++ wholes (n + 1) (n - 1)) = .ok s' ∧
      s'.calls = List.replicate (2 * n) .done ∧ s'.given = s.given ∧ s'.missed = s.missed ∧
      s'.diode.tryNext.1 = none := by
  let back : Sys := { s with
    diode := { s.diode with
      writeIndex := 1
      buffer := Function.update s.diode.buffer (0 % size) (some ⟨0, 0⟩) }
    calls := List.replicate (n + 1) .done }
  have hback : Runs.run step s [.advance 0, .advance 0] = .ok back := by
    rw [Runs.run_cons_of_ok (step_advance (by rw [hcalls]; rfl) rfl),
      Runs.run_cons_of_ok (step_advance (by simp only [hcalls]; rfl) rfl)]
    simp only [hcalls, List.set_cons_zero]
    rfl
  have hwholes := run_wholes (n - 1) back
  rw [show back.calls.length = n + 1 from List.length_replicate] at hwholes
  refine ⟨_, Runs.run_trans hback hwholes, ?_, rfl, rfl, ?_⟩
  · rw [show back.calls = List.replicate (n + 1) .done from rfl, List.replicate_append_replicate,
      show n + 1 + (n - 1) = 2 * n by omega]
  · obtain ⟨hkept, hindex, hsize'⟩ :=
      @foldl_set_buffer (List.range' (n + 1) (n - 1)) back.diode n fun w _ hw => by
      rw [show back.diode.size = size from hsize]
      rw [List.length_range', show back.diode.writeIndex = 1 from rfl] at hw
      exact slot_ne (by omega) hlt
    have hslot : back.diode.buffer n = none :=
      (Function.update_of_ne (slot_ne hpos hlt).symm _ _).trans hnone
    rw [OneToOne.tryNext]
    dsimp only
    rw [hindex, hsize', show back.diode.size = size from hsize,
      show back.diode.readIndex = n from hread, Nat.mod_eq_of_lt hlt, hkept, hslot]

/-- One call that is held up before it stores the write index sets it back when
it goes on. As many envelopes are lost as the reader has read by then, and no
alert counts them: all the other calls are made one after the other. -/
theorem race_loses (size n : Nat) (hpos : 0 < n) (hlt : n < size) :
    ∃ held s, Runs.run step (start size) (heldUp n) = .ok held ∧
      held.calls = .store (0 % size) ⟨0, 0⟩ 0 :: List.replicate n .done ∧ held.given.length = n ∧
      Runs.run step held ([.advance 0, .advance 0] ++ wholes (n + 1) (n - 1)) = .ok s ∧
      s.calls = List.replicate (2 * n) .done ∧ s.given = held.given ∧ s.missed = 0 ∧
      s.diode.tryNext.1 = none := by
  obtain ⟨held, hrun, hcalls, hgiven, hmissed, hsize, hread, hnone⟩ := run_heldUp hlt
  obtain ⟨s, hrun', hcalls', hgiven', hmissed', hnext⟩ :=
    run_setBack hpos hlt hcalls hsize hread hnone
  exact ⟨held, s, hrun, hcalls, hgiven, hrun', hcalls', hgiven', hmissed'.trans hmissed, hnext⟩

theorem race_loses_peer : 0 < 9999 ∧ 9999 < 10000 ∧
    ∃ held s, Runs.run step (start 10000) (heldUp 9999) = .ok held ∧ held.given.length = 9999 ∧
      Runs.run step held ([.advance 0, .advance 0] ++ wholes 10000 9998) = .ok s ∧
      s.calls = List.replicate (2 * 9999) .done ∧ s.given = held.given ∧ s.missed = 0 ∧
      s.diode.tryNext.1 = none := by
  obtain ⟨held, s, hheld, -, hgiven, hrun, hrest⟩ :=
    race_loses 10000 9999 (by decide) (by decide)
  exact ⟨by decide, by decide, held, s, hheld, hgiven, hrun, hrest⟩

end race

end LogCache.DiodeRace
