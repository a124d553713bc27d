import LogCache.Framing
import LogCache.NozzlePipeline

namespace LogCache.SyslogForwarder

open Envelopes Syslog OctetCounting Framing
open NozzlePipeline (Pipeline)

/-- A connection: all that it delivers, what the listener has been called with
and made of it, and the calls that are still to come. `counting` is between the
send of an envelope and the increment of the ingress counter. -/
structure Connection where
  bytes : List UInt8
  emitted : List (Emission SyslogMessage)
  outcomes : List (Option Envelope)
  counting : Bool
  pending : List (Emission SyslogMessage)

/-- The syslog server with its connections, and the nozzle that it feeds. Of
the envelopes that were put into the channel the first `received` have left it;
the last of them may still be in `batch`, which the reader goes through. -/
structure Forwarder where
  server : Server
  connections : List Connection
  received : Nat
  batch : Option Envelope
  nozzle : Pipeline

structure Config where
  lib : Library
  limit : Limit
  internal : List UInt8 → Except String SyslogMessage
  trimMessageWhitespace : Bool
  grow : Nat → Nat
  workers : Nat

def newServer (cfg : Config) : Server := ⟨cfg.trimMessageWhitespace, [], 0, 0⟩

def start (cfg : Config) : Forwarder :=
  ⟨newServer cfg, [], 0, none, NozzlePipeline.start cfg.workers⟩

def channelSize : Nat := 100

/-- `stream` and `ingress` are the reader's, `nozzle` stands for the other steps
of the nozzle. -/
inductive Event
  | accept (bytes : List UInt8)
  | listen (k : Nat) (orders : Orders)
  | count (k : Nat)
  | stream
  | ingress
  | nozzle (event : NozzlePipeline.Event)

def shown (text : List UInt8) : String :=
  String.ofList ((Runes.runes text).map Runes.Rune.value)

def result : Emission SyslogMessage → Result
  | .message msg => ⟨some msg, none⟩
  | .rejected err => ⟨none, some err⟩
  | .framing err => ⟨none, some (shown err.text)⟩

/-- `parseListener` up to the send, and the envelope that is then to be counted. -/
def parseListenerSend (s : Server) (lib : Library) (orders : Orders) (res : Result) :
    Except Panic (Server × Option Envelope) :=
  match res.error with
  | some _ => .ok ({ s with invalidIngress := s.invalidIngress + 1 }, none)
  | none =>
      let s :=
        if res.message.isNone then { s with invalidIngress := s.invalidIngress + 1 } else s
      match s.convertToEnvelope lib orders res.message with
      | .error p => .error p
      | .ok (.error _) => .ok ({ s with invalidIngress := s.invalidIngress + 1 }, none)
      | .ok (.ok env) => .ok ({ s with envelopes := s.envelopes ++ [env] }, some env)

def addIngress (s : Server) : Option Envelope → Server
  | none => s
  | some _ => { s with ingress := s.ingress + 1 }

theorem parseListener_eq (s : Server) (lib : Library) (orders : Orders) (res : Result) :
    s.parseListener lib orders res =
      (fun r => addIngress r.1 r.2) <$> parseListenerSend s lib orders res := by
  rw [Server.parseListener, parseListenerSend]
  cases res.error with
  | some err => rfl
  | none =>
      dsimp only
      generalize (if res.message.isNone then
        { s with invalidIngress := s.invalidIngress + 1 } else s) = s'
      cases s'.convertToEnvelope lib orders res.message with
      | error p => rfl
      | ok out => cases out <;> rfl

def Forwarder.channel (f : Forwarder) : List Envelope := f.server.envelopes.drop f.received

def Forwarder.counting (f : Forwarder) : Nat := f.connections.countP Connection.counting

def Connection.handled (c : Connection) (x : Emission SyslogMessage) (outcome : Option Envelope)
    (pending : List (Emission SyslogMessage)) : Connection :=
  { c with
    emitted := c.emitted ++ [x]
    outcomes := c.outcomes ++ [outcome]
    counting := outcome.isSome
    pending := pending }

def Connection.counted (c : Connection) : Connection := { c with counting := false }

def newConnection (cfg : Config) (bytes : List UInt8) : Connection :=
  ⟨bytes, [], [], false, parse cfg.limit cfg.internal bytes⟩

/-- A panic of one connection ends the process. A call that would send to a
full channel waits. -/
def step (cfg : Config) (f : Forwarder) : Event → Except Stop Forwarder
  | .accept bytes => .ok { f with connections := f.connections ++ [newConnection cfg bytes] }
  | .listen k orders =>
      match f.connections[k]? with
      | none => .error .disabled
      | some c =>
          match c.counting, c.pending with
          | true, _ | false, [] => .error .disabled
          | false, x :: pending =>
              match parseListenerSend f.server cfg.lib orders (result x) with
              | .error p => .error (.panic p)
              | .ok (s, outcome) =>
                  if channelSize < (s.envelopes.drop f.received).length then .error .disabled
                  else
                    .ok { f with
                      server := s
                      connections := f.connections.set k (c.handled x outcome pending) }
  | .count k =>
      match f.connections[k]? with
      | none => .error .disabled
      | some c =>
          if c.counting then
            .ok { f with
              server := { f.server with ingress := f.server.ingress + 1 }
              connections := f.connections.set k c.counted }
          else .error .disabled
  | .stream =>
      match f.batch, f.nozzle.counting, f.server.envelopes[f.received]? with
      | none, false, some env => .ok { f with received := f.received + 1, batch := some env }
      | _, _, _ => .error .disabled
  | .ingress =>
      match f.batch with
      | none => .error .disabled
      | some env =>
          (fun nozzle => { f with batch := none, nozzle := nozzle }) <$>
            NozzlePipeline.step cfg.grow f.nozzle (.ingress env)
  | .nozzle (.ingress _) => .error .disabled
  | .nozzle event =>
      (fun nozzle => { f with nozzle := nozzle }) <$> NozzlePipeline.step cfg.grow f.nozzle event

section listener

variable {cfg : Config} {s s' : Server} {orders : Orders} {x : Emission SyslogMessage}
variable {outcome : Option Envelope}

/-- What the listener makes of a call: an envelope only of a message, and of a
message either an envelope or an error. -/
inductive Converts (cfg : Config) : Emission SyslogMessage → Option Envelope → Prop
  | envelope {msg : SyslogMessage} {env : Envelope} (orders : Orders)
      (h : (newServer cfg).convertToEnvelope cfg.lib orders (some msg) = .ok (.ok env)) :
      Converts cfg (.message msg) (some env)
  | invalid {msg : SyslogMessage} {err : String} (orders : Orders)
      (h : (newServer cfg).convertToEnvelope cfg.lib orders (some msg) = .ok (.error err)) :
      Converts cfg (.message msg) none
  | rejected (err : String) : Converts cfg (.rejected err) none
  | framing (err : FramingError) : Converts cfg (.framing err) none

theorem convertToEnvelope_congr (h : s.trimMessageWhitespace = s'.trimMessageWhitespace)
    (lib : Library) (msg : Option SyslogMessage) :
    s.convertToEnvelope lib orders msg = s'.convertToEnvelope lib orders msg := by
  obtain ⟨trim, envelopes, ingress, invalidIngress⟩ := s
  obtain ⟨trim', envelopes', ingress', invalidIngress'⟩ := s'
  cases h
  rfl

/-- What a call of the listener does to the server before it counts. -/
structure Handled (cfg : Config) (s : Server) (x : Emission SyslogMessage)
    (outcome : Option Envelope) (s' : Server) : Prop where
  converts : Converts cfg x outcome
  trim : s'.trimMessageWhitespace = s.trimMessageWhitespace
  envelopes : s'.envelopes = s.envelopes ++ outcome.toList
  ingress : s'.ingress = s.ingress
  calls : s'.envelopes.length + s'.invalidIngress = s.envelopes.length + s.invalidIngress + 1

theorem handled_of_message {msg : SyslogMessage}
    (htrim : s.trimMessageWhitespace = cfg.trimMessageWhitespace)
    (h : parseListenerSend s cfg.lib orders (result (.message msg)) = .ok (s', outcome)) :
    Handled cfg s (.message msg) outcome s' := by
  have hconvert := @convertToEnvelope_congr s (newServer cfg) orders htrim cfg.lib (some msg)
  simp only [parseListenerSend, result, Option.isNone_some, Bool.false_eq_true, if_false,
    hconvert] at h
  cases hout : (newServer cfg).convertToEnvelope cfg.lib orders (some msg) with
  | error p =>
      rw [hout] at h
      cases h
  | ok out =>
      rw [hout] at h
      cases out with
      | error err =>
          cases h
          exact ⟨.invalid orders hout, rfl, (List.append_nil _).symm, rfl, rfl⟩
      | ok env =>
          cases h
          refine ⟨.envelope orders hout, rfl, rfl, rfl, ?_⟩
          rw [List.length_append, List.length_singleton]
          exact Nat.add_right_comm _ _ _

theorem handled_of_error {err : String} (herr : (result x).error = some err)
    (hconverts : Converts cfg x none)
    (h : parseListenerSend s cfg.lib orders (result x) = .ok (s', outcome)) :
    Handled cfg s x outcome s' := by
  rw [parseListenerSend, herr] at h
  cases h
  exact ⟨hconverts, rfl, (List.append_nil _).symm, rfl, rfl⟩

theorem parseListenerSend_handled (htrim : s.trimMessageWhitespace = cfg.trimMessageWhitespace)
    (h : parseListenerSend s cfg.lib orders (result x) = .ok (s', outcome)) :
    Handled cfg s x outcome s' := by
  cases x with
  | message msg => exact handled_of_message htrim h
  | rejected err => exact handled_of_error rfl (.rejected err) h
  | framing err => exact handled_of_error rfl (.framing err) h

end listener

section steps

variable {cfg : Config} {f f' : Forwarder} {event : Event}

inductive Steps (cfg : Config) (f : Forwarder) : Event → Forwarder → Prop
  | accept (bytes : List UInt8) : Steps cfg f (.accept bytes)
      { f with connections := f.connections ++ [newConnection cfg bytes] }
  | listen {k : Nat} {orders : Orders} {c : Connection} {x : Emission SyslogMessage}
      {pending : List (Emission SyslogMessage)} {outcome : Option Envelope} {s : Server}
      (hk : f.connections[k]? = some c) (hcounting : c.counting = false)
      (hpending : c.pending = x :: pending) (hhandled : Handled cfg f.server x outcome s)
      (hroom : (s.envelopes.drop f.received).length ≤ channelSize) : Steps cfg f (.listen k orders)
      { f with server := s, connections := f.connections.set k (c.handled x outcome pending) }
  | count {k : Nat} {c : Connection} (hk : f.connections[k]? = some c)
      (hcounting : c.counting = true) : Steps cfg f (.count k)
      { f with
        server := { f.server with ingress := f.server.ingress + 1 }
        connections := f.connections.set k c.counted }
  | stream {env : Envelope} (hbatch : f.batch = none)
      (henv : f.server.envelopes[f.received]? = some env) : Steps cfg f .stream
      { f with received := f.received + 1, batch := some env }
  | ingress {env : Envelope} (hbatch : f.batch = some env) (hcounting : f.nozzle.counting = false) :
      Steps cfg f .ingress { f with batch := none, nozzle := f.nozzle.ingress env }
  | nozzle {event : NozzlePipeline.Event} {nozzle : Pipeline}
      (hstep : NozzlePipeline.step cfg.grow f.nozzle event = .ok nozzle)
      (hingressed : nozzle.ingressed = f.nozzle.ingressed) :
      Steps cfg f (.nozzle event) { f with nozzle := nozzle }

theorem ingressed_eq {grow : Nat → Nat} {p p' : Pipeline} {event : NozzlePipeline.Event}
    (hstep : NozzlePipeline.step grow p event = .ok p') (h : ∀ e, event ≠ .ingress e) :
    p'.ingressed = p.ingressed := by
  cases event with
  | ingress e => exact absurd rfl (h e)
  | count | tryNext =>
      rw [NozzlePipeline.step] at hstep
      split_ifs at hstep
      cases hstep
      rfl
  | select fired =>
      rw [NozzlePipeline.step] at hstep
      split_ifs at hstep
      cases hstep
      rw [Pipeline.select]
      split_ifs <;> rfl
  | receive =>
      rw [NozzlePipeline.step] at hstep
      cases hch : p.ch with
      | nil => simp [hch] at hstep
      | cons envelopes ch =>
          simp only [hch] at hstep
          split_ifs at hstep
          cases hstep
          rfl
  | respond k err =>
      rw [NozzlePipeline.step] at hstep
      cases hk : p.sending[k]? with
      | none => simp [hk] at hstep
      | some envelopes =>
          simp only [hk] at hstep
          cases hstep
          rfl

theorem steps_of_listen {k : Nat} {orders : Orders}
    (htrim : f.server.trimMessageWhitespace = cfg.trimMessageWhitespace)
    (h : step cfg f (.listen k orders) = .ok f') : Steps cfg f (.listen k orders) f' := by
  simp only [step] at h
  cases hk : f.connections[k]? with
  | none => simp [hk] at h
  | some c =>
      cases hcounting : c.counting with
      | true => simp [hk, hcounting] at h
      | false =>
          cases hpending : c.pending with
          | nil => simp [hk, hcounting, hpending] at h
          | cons x pending =>
              cases hsend : parseListenerSend f.server cfg.lib orders (result x) with
              | error p => simp [hk, hcounting, hpending, hsend] at h
              | ok r =>
                  simp only [hk, hcounting, hpending, hsend] at h
                  split_ifs at h with hroom
                  cases h
                  exact .listen hk hcounting hpending (parseListenerSend_handled htrim hsend)
                    (Nat.not_lt.mp hroom)

theorem steps_of_count {k : Nat} (h : step cfg f (.count k) = .ok f') :
    Steps cfg f (.count k) f' := by
  simp only [step] at h
  cases hk : f.connections[k]? with
  | none => simp [hk] at h
  | some c =>
      simp only [hk] at h
      split_ifs at h with hcounting
      cases h
      exact .count hk hcounting

theorem steps_of_stream (h : step cfg f .stream = .ok f') : Steps cfg f .stream f' := by
  simp only [step] at h
  split at h
  next env hbatch hcounting henv =>
    cases h
    exact .stream hbatch henv
  next => cases h

theorem steps_of_ingress (h : step cfg f .ingress = .ok f') : Steps cfg f .ingress f' := by
  simp only [step] at h
  cases hbatch : f.batch with
  | none => simp [hbatch] at h
  | some env =>
      simp only [hbatch] at h
      obtain ⟨nozzle, hstep, rfl⟩ := Runs.map_ok h
      rw [NozzlePipeline.step] at hstep
      split_ifs at hstep with hcounting
      cases hstep
      exact .ingress hbatch (Bool.eq_false_iff.mpr hcounting)

theorem step_nozzle {event : NozzlePipeline.Event} (h : ∀ e, event ≠ .ingress e) :
    step cfg f (.nozzle event) =
      (fun nozzle => { f with nozzle := nozzle }) <$>
        NozzlePipeline.step cfg.grow f.nozzle event := by
  cases event with
  | ingress e => exact absurd rfl (h e)
  | count | tryNext | select | receive | respond => rfl

theorem step_cases (htrim : f.server.trimMessageWhitespace = cfg.trimMessageWhitespace)
    (h : step cfg f event = .ok f') : Steps cfg f event f' := by
  cases event with
  | accept bytes =>
      cases h
      exact .accept bytes
  | listen k orders => exact steps_of_listen htrim h
  | count k => exact steps_of_count h
  | stream => exact steps_of_stream h
  | ingress => exact steps_of_ingress h
  | nozzle event =>
      have hnot : ∀ e, event ≠ .ingress e := by
        rintro e rfl
        cases h
      rw [step_nozzle hnot] at h
      obtain ⟨nozzle, hstep, rfl⟩ := Runs.map_ok h
      exact .nozzle hstep (ingressed_eq hstep hnot)

end steps

section accounts

variable {cfg : Config} {f f' : Forwarder} {event : Event}

def Connection.envelopes (c : Connection) : List Envelope := c.outcomes.filterMap id

structure Connection.Sound (cfg : Config) (c : Connection) : Prop where
  emissions : parse cfg.limit cfg.internal c.bytes = c.emitted ++ c.pending
  outcomes : List.Forall₂ (Converts cfg) c.emitted c.outcomes

structure Accounted (cfg : Config) (f : Forwarder) : Prop where
  trim : f.server.trimMessageWhitespace = cfg.trimMessageWhitespace
  connections : ∀ c ∈ f.connections, c.Sound cfg
  envelopes : f.server.envelopes.Perm (f.connections.flatMap Connection.envelopes)
  order : ∀ c ∈ f.connections, c.envelopes.Sublist f.server.envelopes
  ingress : f.server.ingress + f.counting = f.server.envelopes.length
  calls : f.server.envelopes.length + f.server.invalidIngress =
    (f.connections.flatMap Connection.emitted).length
  received : f.received ≤ f.server.envelopes.length
  channel : f.channel.length ≤ channelSize
  ingressed : f.nozzle.ingressed ++ f.batch.toList = f.server.envelopes.take f.received
  nozzle : NozzlePipeline.Conserved f.nozzle

theorem start_accounted (cfg : Config) : Accounted cfg (start cfg) where
  trim := rfl
  connections _ h := absurd h List.not_mem_nil
  envelopes := List.Perm.refl _
  order _ h := absurd h List.not_mem_nil
  ingress := rfl
  calls := rfl
  received := Nat.le_refl _
  channel := Nat.zero_le _
  ingressed := rfl
  nozzle := NozzlePipeline.start_conserved cfg.workers

theorem perm_flatMap_set {α β : Type} {xs : List α} {k : Nat} {a b : α} {new : List β}
    (hk : xs[k]? = some a) (g : α → List β) (hb : g b = g a ++ new) :
    ((xs.set k b).flatMap g).Perm (xs.flatMap g ++ new) := by
  induction xs generalizing k with
  | nil => cases hk
  | cons x xs ih =>
      cases k with
      | zero =>
          obtain rfl : x = a := Option.some.inj hk
          rw [List.set_cons_zero, List.flatMap_cons, List.flatMap_cons, hb, List.append_assoc,
            List.append_assoc]
          exact List.perm_append_comm.append_left _
      | succ k =>
          rw [List.set_cons_succ, List.flatMap_cons, List.flatMap_cons, List.append_assoc]
          exact (ih hk).append_left _

theorem flatMap_set_eq {α β : Type} {xs : List α} {k : Nat} {a b : α} (hk : xs[k]? = some a)
    (g : α → List β) (hb : g b = g a) : (xs.set k b).flatMap g = xs.flatMap g := by
  obtain ⟨hlt, rfl⟩ := List.getElem?_eq_some_iff.mp hk
  have hlt' : k < (xs.map g).length := by rwa [List.length_map]
  rw [List.flatMap_def, List.flatMap_def, List.map_set, hb, ← List.getElem_map g (h := hlt'),
    List.set_getElem_self]

theorem countP_set_add {α : Type} {xs : List α} {k : Nat} {a : α} (p : α → Bool)
    (hk : xs[k]? = some a) (b : α) :
    (xs.set k b).countP p + (if p a then 1 else 0) = xs.countP p + (if p b then 1 else 0) := by
  induction xs generalizing k with
  | nil => cases hk
  | cons x xs ih =>
      cases k with
      | zero =>
          obtain rfl : x = a := Option.some.inj hk
          rw [List.set_cons_zero, List.countP_cons, List.countP_cons, Nat.add_right_comm]
      | succ k =>
          have := ih hk
          rw [List.set_cons_succ, List.countP_cons, List.countP_cons]
          omega

theorem envelopes_handled (c : Connection) (x : Emission SyslogMessage) (outcome : Option Envelope)
    (pending : List (Emission SyslogMessage)) :
    (c.handled x outcome pending).envelopes = c.envelopes ++ outcome.toList := by
  rw [Connection.envelopes, Connection.handled, List.filterMap_append, Connection.envelopes]
  cases outcome <;> rfl

theorem Connection.Sound.handled {c : Connection} {x : Emission SyslogMessage}
    {outcome : Option Envelope} {pending : List (Emission SyslogMessage)} (h : c.Sound cfg)
    (hpending : c.pending = x :: pending) (hconverts : Converts cfg x outcome) :
    (c.handled x outcome pending).Sound cfg where
  emissions := (h.emissions.trans (congrArg _ hpending)).trans (List.append_cons _ _ _)
  outcomes := List.rel_append h.outcomes (.cons hconverts .nil)

theorem accept_accounted (h : Accounted cfg f) (bytes : List UInt8) : Accounted cfg
    { f with connections := f.connections ++ [newConnection cfg bytes] } where
  __ := h
  connections :=
    List.forall_mem_append.mpr ⟨h.connections, List.forall_mem_singleton.mpr ⟨rfl, .nil⟩⟩
  envelopes := by
    rw [List.flatMap_append]
    exact h.envelopes.trans (List.Perm.of_eq (List.append_nil _).symm)
  order :=
    List.forall_mem_append.mpr ⟨h.order, List.forall_mem_singleton.mpr (List.nil_sublist _)⟩
  ingress := by
    rw [Forwarder.counting, List.countP_append]
    exact h.ingress
  calls := by
    rw [List.flatMap_append]
    exact h.calls.trans (congrArg List.length (List.append_nil _).symm)

section listen

variable {k : Nat} {c : Connection}

theorem listen_accounted {x : Emission SyslogMessage} {pending : List (Emission SyslogMessage)}
    {outcome : Option Envelope} {s : Server} (h : Accounted cfg f)
    (hk : f.connections[k]? = some c) (hcounting : c.counting = false)
    (hpending : c.pending = x :: pending) (hhandled : Handled cfg f.server x outcome s)
    (hroom : (s.envelopes.drop f.received).length ≤ channelSize) : Accounted cfg
      { f with server := s, connections := f.connections.set k (c.handled x outcome pending) } := by
  have hc : c ∈ f.connections := List.mem_of_getElem? hk
  have hnew := envelopes_handled c x outcome pending
  have hmem : ∀ c' ∈ f.connections.set k (c.handled x outcome pending),
      c' ∈ f.connections ∨ c' = c.handled x outcome pending :=
    fun c' hc' => List.mem_or_eq_of_mem_set hc'
  constructor
  case trim => exact hhandled.trim.trans h.trim
  case connections =>
    intro c' hc'
    rcases hmem c' hc' with hold | rfl
    · exact h.connections c' hold
    · exact (h.connections c hc).handled hpending hhandled.converts
  case envelopes =>
    rw [hhandled.envelopes]
    exact (h.envelopes.append_right _).trans (perm_flatMap_set hk _ hnew).symm
  case order =>
    intro c' hc'
    rw [hhandled.envelopes]
    rcases hmem c' hc' with hold | rfl
    · exact (h.order c' hold).trans (List.sublist_append_left _ _)
    · rw [hnew]
      exact (h.order c hc).append (List.Sublist.refl _)
  case ingress =>
    have hcount := countP_set_add Connection.counting hk (c.handled x outcome pending)
    have hingress := h.ingress
    simp only [Forwarder.counting] at hingress ⊢
    rw [hhandled.ingress, hhandled.envelopes, List.length_append]
    cases outcome <;> simp [hcounting, Connection.handled] at hcount ⊢ <;> omega
  case calls =>
    rw [(perm_flatMap_set hk Connection.emitted rfl).length_eq, List.length_append, ← h.calls]
    exact hhandled.calls
  case received =>
    rw [hhandled.envelopes, List.length_append]
    exact Nat.le_add_right_of_le h.received
  case channel => exact hroom
  case ingressed =>
    rw [hhandled.envelopes, List.take_append_of_le_length h.received]
    exact h.ingressed
  case nozzle => exact h.nozzle

theorem count_accounted (h : Accounted cfg f) (hk : f.connections[k]? = some c)
    (hcounting : c.counting = true) : Accounted cfg
      { f with
        server := { f.server with ingress := f.server.ingress + 1 }
        connections := f.connections.set k c.counted } := by
  have hc : c ∈ f.connections := List.mem_of_getElem? hk
  have hcount := countP_set_add Connection.counting hk c.counted
  have hingress := h.ingress
  refine { h with connections := ?_, envelopes := ?_, order := ?_, ingress := ?_, calls := ?_ }
  · intro c' hc'
    rcases List.mem_or_eq_of_mem_set hc' with hold | rfl
    · exact h.connections c' hold
    · exact ⟨(h.connections c hc).emissions, (h.connections c hc).outcomes⟩
  · rw [@flatMap_set_eq _ _ _ _ _ c.counted hk Connection.envelopes rfl]
    exact h.envelopes
  · intro c' hc'
    rcases List.mem_or_eq_of_mem_set hc' with hold | rfl
    · exact h.order c' hold
    · exact h.order c hc
  · simp only [Forwarder.counting, hcounting, Connection.counted] at hcount hingress ⊢
    simp at hcount
    omega
  · rw [@flatMap_set_eq _ _ _ _ _ c.counted hk Connection.emitted rfl]
    exact h.calls

end listen

section reader

variable {env : Envelope}

theorem stream_accounted (h : Accounted cfg f) (hbatch : f.batch = none)
    (henv : f.server.envelopes[f.received]? = some env) :
    Accounted cfg { f with received := f.received + 1, batch := some env } := by
  obtain ⟨hlt, henv⟩ := List.getElem?_eq_some_iff.mp henv
  refine { h with received := hlt, channel := ?_, ingressed := ?_ }
  · have := h.channel
    simp only [Forwarder.channel, List.length_drop] at this ⊢
    omega
  · have hingressed := h.ingressed
    rw [hbatch, Option.toList_none, List.append_nil] at hingressed
    rw [List.take_succ_eq_append_getElem hlt, henv, ← hingressed, Option.toList_some]

theorem ingress_accounted (h : Accounted cfg f) (hbatch : f.batch = some env)
    (hcounting : f.nozzle.counting = false) :
    Accounted cfg { f with batch := none, nozzle := f.nozzle.ingress env } := by
  have hingressed := h.ingressed
  rw [hbatch] at hingressed
  refine { h with ingressed := ?_, nozzle := NozzlePipeline.ingress_conserved h.nozzle
                    hcounting env }
  rw [Option.toList_none, List.append_nil]
  exact hingressed

end reader

theorem step_accounted (h : Accounted cfg f) (hstep : step cfg f event = .ok f') :
    Accounted cfg f' := by
  cases step_cases h.trim hstep with
  | accept bytes => exact accept_accounted h bytes
  | listen hk hcounting hpending hhandled hroom =>
      exact listen_accounted h hk hcounting hpending hhandled hroom
  | count hk hcounting => exact count_accounted h hk hcounting
  | stream hbatch henv => exact stream_accounted h hbatch henv
  | ingress hbatch hcounting => exact ingress_accounted h hbatch hcounting
  | nozzle hnozzle hingressed =>
      exact
        { h with
          ingressed := (congrArg (· ++ _) hingressed).trans h.ingressed
          nozzle := NozzlePipeline.step_conserved h.nozzle hnozzle }

/-- From the sockets to the log cache. -/
theorem forwarder_conserves (cfg : Config) (events : List Event) (f : Forwarder)
    (hrun : Runs.run (step cfg) (start cfg) events = .ok f) :
    (∀ c ∈ f.connections, c.Sound cfg ∧ c.envelopes.Sublist f.server.envelopes) ∧
      f.server.envelopes.Perm (f.connections.flatMap Connection.envelopes) ∧
      f.server.ingress + f.counting = f.server.envelopes.length ∧
      f.server.ingress + f.counting + f.server.invalidIngress =
        (f.connections.flatMap Connection.emitted).length ∧
      f.channel.length ≤ channelSize ∧ f.nozzle.taken.Sublist f.server.envelopes ∧
      f.nozzle.egressCounter = f.nozzle.accepted.length ∧
      ∃ overwritten : List Envelope,
        f.server.envelopes.Perm (f.nozzle.accepted ++ f.nozzle.refused ++ f.nozzle.inFlight ++
          f.nozzle.queued ++ (NozzlePipeline.floored f.nozzle.batcher.batches).flatten ++
          f.nozzle.buffered ++ overwritten ++ f.nozzle.unread ++ f.batch.toList ++ f.channel) ∧
        overwritten.length = f.nozzle.dropped.sum := by
  have h := Runs.run_invariant (fun _ _ _ hs _ hstep => step_accounted hs hstep)
    (start_accounted cfg) (Runs.along_of_forall (fun _ _ => trivial) _ events) hrun
  have hcalls := h.calls
  rw [← h.ingress] at hcalls
  refine ⟨fun c hc => ⟨h.connections c hc, h.order c hc⟩, h.envelopes, h.ingress, hcalls, h.channel,
    ?_, h.nozzle.egress, ?_⟩
  · have hread : f.nozzle.taken.Sublist f.nozzle.ingressed :=
      h.nozzle.diode.accounted.order.trans (List.take_sublist _ _)
    have htaken := hread.trans (List.sublist_append_left _ f.batch.toList)
    rw [h.ingressed] at htaken
    exact htaken.trans (List.take_sublist _ _)
  · obtain ⟨overwritten, hperm, hlength⟩ := h.nozzle.places
    refine ⟨overwritten, ?_, hlength⟩
    have hreceived := hperm.append_right f.batch.toList
    rw [h.ingressed] at hreceived
    have hall := hreceived.append_right f.channel
    rwa [Forwarder.channel, List.take_append_drop] at hall

def sampleConfig : Config := ⟨plainLibrary, serverLimit, parseLine, true, id, 1⟩

def databaseLine : List UInt8 := bytesOf "<14>1 1970-01-01T00:00:00Z - db 2 - - bye"

def databaseMessage : SyslogMessage :=
  ⟨some 14, 1, some 0, some "db", some "2", none, some (bytesOf "bye")⟩

/-- Two lines of one application, and a line of a database before a byte that
does not begin a frame. -/
def sampleBytes : List (List UInt8) :=
  [logFrame.frame ++ (logFrame.frame ++ []), bytesOf "41 " ++ databaseLine ++ bytesOf "x"]

def sampleConnections : List Connection :=
  [⟨logFrame.frame ++ (logFrame.frame ++ []), [], [], false,
      [.message logMessage, .message logMessage]⟩,
    ⟨bytesOf "41 " ++ databaseLine ++ bytesOf "x", [], [], false,
      [.message databaseMessage, .framing (.expecting ⟨.illegal, bytesOf "x"⟩ .msgLen)]⟩]

theorem sampleConnections_eq :
    sampleBytes.map (newConnection sampleConfig) = sampleConnections := by
  have hlines : parse serverLimit parseLine (logFrame.frame ++ (logFrame.frame ++ [])) =
      [.message logMessage, .message logMessage] :=
    parse_of_stream (.frame logFrame_valid.1 logFrame_valid.2
      (.frame logFrame_valid.1 logFrame_valid.2 (.ended rfl)))
  have hframe : Frame serverLimit (bytesOf "41 " ++ databaseLine) databaseLine :=
    frame_of_length rfl rfl
  have hbyte : ¬ AtEnd (bytesOf "x") := by
    rw [AtEnd]
    decide
  have hfault : Fault serverLimit (bytesOf "x") (.expecting ⟨.illegal, bytesOf "x"⟩ .msgLen) :=
    .noLength rfl (by simp)
  have hdatabase : parse serverLimit parseLine (bytesOf "41 " ++ databaseLine ++ bytesOf "x") =
      [.message databaseMessage, .framing (.expecting ⟨.illegal, bytesOf "x"⟩ .msgLen)] :=
    parse_of_stream (.frame hframe rfl (.fault (fun _ => hbyte) hfault))
  rw [sampleConnections, ← hlines, ← hdatabase]
  rfl

/-- The reader takes an envelope before it is counted, and both connections are
in the listener at once. -/
def sampleEvents (orders : Orders) : List Event :=
  [.listen 0 orders, .listen 1 orders, .stream, .ingress, .count 0, .nozzle .count,
    .listen 0 orders, .nozzle .tryNext, .stream, .count 1, .listen 1 orders,
    .nozzle (.select true), .nozzle .receive, .nozzle (.respond 0 false)]

def logEnvelope : Envelope := ⟨0, "app", "1", ∅, ∅, .log (bytesOf "hi") .out⟩

def databaseEnvelope : Envelope := ⟨0, "db", "2", ∅, ∅, .log (bytesOf "bye") .out⟩

theorem visit_empty {β : Type} (order : MapOrders.MapOrder β) : order.visit ∅ = [] := by
  refine List.eq_nil_iff_forall_not_mem.mpr fun p hp => ?_
  have hlookup : (∅ : GoMap β).lookup p.1 = some p.2 := (MapOrders.mem_visit _).mp hp
  cases hlookup

theorem send_log (envelopes : List Envelope) (ingress invalidIngress : Nat) (orders : Orders) :
    parseListenerSend ⟨true, envelopes, ingress, invalidIngress⟩ plainLibrary orders
        (result (.message logMessage)) =
      .ok (⟨true, envelopes ++ [logEnvelope], ingress, invalidIngress⟩, some logEnvelope) := by
  have hempty : orders.structuredData.visit (logMessage.structuredData.getD ∅) = [] :=
    visit_empty _
  simp only [parseListenerSend, result, Server.convertToEnvelope, hempty]
  rfl

theorem send_database (envelopes : List Envelope) (ingress invalidIngress : Nat)
    (orders : Orders) :
    parseListenerSend ⟨true, envelopes, ingress, invalidIngress⟩ plainLibrary orders
        (result (.message databaseMessage)) =
      .ok (⟨true, envelopes ++ [databaseEnvelope], ingress, invalidIngress⟩,
        some databaseEnvelope) := by
  have hempty : orders.structuredData.visit (databaseMessage.structuredData.getD ∅) = [] :=
    visit_empty _
  simp only [parseListenerSend, result, Server.convertToEnvelope, hempty]
  rfl

theorem step_listen {k : Nat} {orders : Orders} {c : Connection} {x : Emission SyslogMessage}
    {pending : List (Emission SyslogMessage)} {outcome : Option Envelope} {s : Server}
    (hk : f.connections[k]? = some c) (hcounting : c.counting = false)
    (hpending : c.pending = x :: pending)
    (hsend : parseListenerSend f.server cfg.lib orders (result x) = .ok (s, outcome))
    (hroom : (s.envelopes.drop f.received).length ≤ channelSize) :
    step cfg f (.listen k orders) = .ok
      { f with server := s, connections := f.connections.set k (c.handled x outcome pending) } := by
  simp only [step, hk, hcounting, hpending, hsend, if_neg (Nat.not_lt.mpr hroom)]

theorem run_sample (orders : Orders) : ∃ f, Runs.run (step sampleConfig)
    { start sampleConfig with connections := sampleConnections } (sampleEvents orders) = .ok f ∧
      f.nozzle.accepted = [logEnvelope] ∧ f.batch = some databaseEnvelope ∧
      f.channel = [logEnvelope] ∧ f.server.ingress = 2 ∧ f.counting = 1 ∧
      f.server.invalidIngress = 1 := by
  rw [sampleEvents,
    Runs.run_cons_of_ok (step_listen rfl rfl rfl (send_log _ _ _ _) (by decide)),
    Runs.run_cons_of_ok (step_listen rfl rfl rfl (send_database _ _ _ _) (by decide)),
    Runs.run_cons_of_ok rfl, Runs.run_cons_of_ok rfl, Runs.run_cons_of_ok rfl,
    Runs.run_cons_of_ok rfl,
    Runs.run_cons_of_ok (step_listen rfl rfl rfl (send_log _ _ _ _) (by decide))]
  exact ⟨_, rfl, rfl, rfl, rfl, rfl, rfl, rfl⟩

theorem forwarder_conserves_two : ∃ f, Runs.run (step sampleConfig) (start sampleConfig)
    (sampleBytes.map .accept ++ sampleEvents ⟨.any, .any⟩) = .ok f ∧
      f.nozzle.accepted = [logEnvelope] ∧ f.batch = some databaseEnvelope ∧
      f.channel = [logEnvelope] ∧ f.server.ingress = 2 ∧ f.server.invalidIngress = 1 ∧
      2 + f.counting + 1 = (f.connections.flatMap Connection.emitted).length := by
  have haccept : Runs.run (step sampleConfig) (start sampleConfig) (sampleBytes.map .accept) =
      .ok { start sampleConfig with connections := sampleConnections } := by
    rw [← sampleConnections_eq]
    rfl
  obtain ⟨f, hrun, haccepted, hbatch, hchannel, hingress, -, hinvalid⟩ := run_sample ⟨.any, .any⟩
  have hf := Runs.run_trans haccept hrun
  have hcalls := (forwarder_conserves sampleConfig _ f hf).2.2.2.1
  rw [hingress, hinvalid] at hcalls
  exact ⟨f, hf, haccepted, hbatch, hchannel, hingress, hinvalid, hcalls⟩

end accounts

end LogCache.SyslogForwarder
