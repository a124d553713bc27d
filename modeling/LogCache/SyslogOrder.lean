import LogCache.Runs
import LogCache.Syslog

namespace LogCache.SyslogOrder

open Envelopes MapOrders Syslog Runs

variable {lib : Library}

section elements

inductive Element
  | message (m : Message)
  | tags (payload : GoMap String)

def Element.apply (order : MapOrder String) (env : Envelope) : Element → Envelope
  | .message m => { env with message := m }
  | .tags payload => convertTags order env payload

def messageOf (convert : Envelope → GoMap String → Except String Envelope)
    (payload : GoMap String) :
    Except String Element :=
  (convert (bare 0) payload).map fun env => .message env.message

def elementOf (lib : Library) (envType : String) (payload : GoMap String) : Except String Element :=
  if startsWith envType "counter" then messageOf (convertCounter lib) payload
  else if startsWith envType "gauge" then messageOf (convertGauge lib) payload
  else if startsWith envType "event" then messageOf convertEvent payload
  else if startsWith envType "timer" then messageOf (convertTimer lib) payload
  else if startsWith envType "tags" then .ok (.tags payload)
  else .error ("unknown envelope type for structured data: [" ++ envType ++ "=\"" ++
    lib.goSyntax payload ++ "\"]")

def SetsMessage (convert : Envelope → GoMap String → Except String Envelope) : Prop :=
  ∀ order env payload, convert env payload = (messageOf convert payload).map
    (Element.apply order env)

theorem setsMessage_counter (lib : Library) : SetsMessage (convertCounter lib) := by
  intro order env payload
  rw [messageOf, convertCounter, convertCounter]
  cases (parseUint (param payload "delta")).mapError
    (numError lib "ParseUint" (param payload "delta")) with
  | error err => rfl
  | ok delta =>
      cases (parseUint (param payload "total")).mapError
        (numError lib "ParseUint" (param payload "total")) <;> rfl

theorem setsMessage_timer (lib : Library) : SetsMessage (convertTimer lib) := by
  intro order env payload
  rw [messageOf, convertTimer, convertTimer]
  cases (parseInt (param payload "start")).mapError
    (numError lib "ParseInt" (param payload "start")) with
  | error err => rfl
  | ok start =>
      cases (parseInt (param payload "stop")).mapError
        (numError lib "ParseInt" (param payload "stop")) <;> rfl

theorem setsMessage_gauge (lib : Library) : SetsMessage (convertGauge lib) := by
  intro order env payload
  rw [messageOf, convertGauge, convertGauge]
  cases payload.lookup "unit" with
  | none => rfl
  | some unit => cases lib.parseFloat (param payload "value") <;> rfl

theorem setsMessage_event : SetsMessage convertEvent := fun _ _ _ => rfl

theorem convertStructuredData_eq (order : MapOrder String) (env : Envelope) (envType : String)
    (payload : GoMap String) :
    convertStructuredData lib order env envType payload =
      (elementOf lib envType payload).map (Element.apply order env) := by
  rw [convertStructuredData, elementOf]
  split_ifs
  · exact setsMessage_counter lib order env payload
  · exact setsMessage_gauge lib order env payload
  · exact setsMessage_event order env payload
  · exact setsMessage_timer lib order env payload
  · rfl
  · rfl

def elements (lib : Library) (xs : List (Σ _ : String, GoMap String)) : List Element :=
  xs.filterMap fun p => (elementOf lib p.1 p.2).toOption

theorem convertElements_ok {orders : Orders} {xs : List (Σ _ : String, GoMap String)}
    (h : ∀ p ∈ xs, ∃ x, elementOf lib p.1 p.2 = .ok x) (env : Envelope) :
    Server.convertElements lib orders env xs =
      .ok ((elements lib xs).foldl (Element.apply orders.tags) env) := by
  induction xs generalizing env with
  | nil => rfl
  | cons p xs ih =>
      obtain ⟨⟨x, hx⟩, hrest⟩ := List.forall_mem_cons.mp h
      have hcons : elements lib (p :: xs) = x :: elements lib xs := by
        simp only [elements, List.filterMap_cons, hx]
        rfl
      rw [Server.convertElements, List.foldlM_cons, convertStructuredData_eq, hx, hcons]
      exact ih hrest _

theorem convertElements_error {orders : Orders} {xs : List (Σ _ : String, GoMap String)}
    {p : Σ _ : String, GoMap String} (hp : p ∈ xs) {err : String}
    (herr : elementOf lib p.1 p.2 = .error err) (env : Envelope) :
    ∃ err, Server.convertElements lib orders env xs = .error err := by
  refine foldlM_error hp (fun env => ⟨err, ?_⟩) env
  rw [convertStructuredData_eq, herr]
  rfl

end elements

section commuting

def Agree : Element → Element → Prop
  | .message m, .message m' => m = m'
  | .tags payload, .tags payload' => ∀ key value value', payload.lookup key = some value →
      payload'.lookup key = some value' → value = value'
  | _, _ => True

theorem insertAll_comm (order : MapOrder String) {payload payload' : GoMap String}
    (h : ∀ key value value', payload.lookup key = some value → payload'.lookup key = some value' →
      value = value')
    (tags : GoMap String) :
    insertAll (insertAll tags (order.visit payload)) (order.visit payload') =
      insertAll (insertAll tags (order.visit payload')) (order.visit payload) := by
  apply Finmap.ext_lookup
  intro key
  simp only [lookup_insertAll_visit]
  cases hvalue : payload.lookup key with
  | none => rfl
  | some value =>
      cases hvalue' : payload'.lookup key with
      | none => rfl
      | some value' => rw [h key value value' hvalue hvalue']

theorem apply_comm (order : MapOrder String) {x y : Element} (h : Agree x y) (env : Envelope) :
    Element.apply order (Element.apply order env x) y =
      Element.apply order (Element.apply order env y) x := by
  cases x with
  | message m =>
      cases y with
      | message m' => rw [show m = m' from h]
      | tags payload => rfl
  | tags payload =>
      cases y with
      | message m => rfl
      | tags payload' =>
          simp only [Element.apply, convertTags]
          rw [insertAll_comm order h]

theorem apply_order (order order' : MapOrder String) :
    Element.apply order = Element.apply order' := by
  funext env x
  cases x with
  | message m => rfl
  | tags payload =>
      have htags : insertAll env.tags (order.visit payload) =
          insertAll env.tags (order'.visit payload) := by
        apply Finmap.ext_lookup
        intro key
        rw [lookup_insertAll_visit, lookup_insertAll_visit]
      simp only [Element.apply, convertTags, htags]

/-- The last element decides: two orders that end with one or the other leave
the same only if the two agree. -/
theorem agree_of_last {order : MapOrder String} {env env' : Envelope} {x y : Element}
    (h : (Element.apply order env x).message = (Element.apply order env' y).message)
    (htags : (Element.apply order env x).tags = (Element.apply order env' y).tags) : Agree x y := by
  cases x with
  | message m =>
      cases y with
      | message m' => exact h
      | tags payload => trivial
  | tags payload =>
      cases y with
      | message m => trivial
      | tags payload' =>
          intro key value value' hvalue hvalue'
          have hlookup := congrArg (Finmap.lookup key) htags
          simp only [Element.apply, convertTags, lookup_insertAll_visit, hvalue, hvalue',
            Option.some_or, Option.some.injEq] at hlookup
          exact hlookup

end commuting

section outcome

variable {s : Server} {orders orders' : Orders} {msg : SyslogMessage}

def envelopeOf : Except Panic (Except String Envelope) → Option Envelope
  | .ok (.ok env) => some env
  | _ => none

/-- Whether a message is converted, and to what, is the same for all orders of
the loops over maps. -/
def OrderFree (lib : Library) (s : Server) (msg : SyslogMessage) : Prop :=
  ∀ orders orders', envelopeOf (s.convertToEnvelope lib orders (some msg)) =
    envelopeOf (s.convertToEnvelope lib orders' (some msg))

def Addressed (msg : SyslogMessage) : Prop :=
  msg.procID ≠ none ∧ msg.appname ≠ none ∧ msg.timestamp ≠ none

def structuredDataOf (msg : SyslogMessage) : GoMap (GoMap String) := msg.structuredData.getD ∅

def Carries (lib : Library) (msg : SyslogMessage) (x : Element) : Prop :=
  ∃ envType payload, (structuredDataOf msg).lookup envType = some payload ∧
    elementOf lib envType payload = .ok x

def Inconvertible (lib : Library) (msg : SyslogMessage) : Prop :=
  ∃ envType payload err, (structuredDataOf msg).lookup envType = some payload ∧
    elementOf lib envType payload = .error err

def Speechless (lib : Library) (msg : SyslogMessage) : Prop :=
  (∀ m, ¬ Carries lib msg (.message m)) ∧ (msg.message = none ∨ msg.priority = none)

theorem convert_of_not_addressed (h : ¬ Addressed msg) (orders : Orders) :
    envelopeOf (s.convertToEnvelope lib orders (some msg)) = none := by
  rw [Server.convertToEnvelope]
  dsimp only
  cases hproc : msg.procID with
  | none => rfl
  | some procID =>
      cases happ : msg.appname with
      | none => rfl
      | some sourceID =>
          cases htime : msg.timestamp with
          | none => rfl
          | some timestamp =>
              refine absurd ⟨?_, ?_, ?_⟩ h
              · rw [hproc]; exact Option.some_ne_none _
              · rw [happ]; exact Option.some_ne_none _
              · rw [htime]; exact Option.some_ne_none _

theorem convert_of_addressed (h : Addressed msg) :
    ∃ env, env.message = .unset ∧ ∀ orders, s.convertToEnvelope lib orders (some msg) =
      match Server.convertElements lib orders env
        (orders.structuredData.visit (structuredDataOf msg)) with
      | .error err => .ok (.error err)
      | .ok env => s.finishEnvelope env msg := by
  obtain ⟨procID, hproc⟩ := Option.ne_none_iff_exists'.mp h.1
  obtain ⟨sourceID, happ⟩ := Option.ne_none_iff_exists'.mp h.2.1
  obtain ⟨timestamp, htime⟩ := Option.ne_none_iff_exists'.mp h.2.2
  refine ⟨⟨Int64.ofInt timestamp, sourceID, instanceIdFromPID procID, ∅, ∅, .unset⟩, rfl,
    fun orders => ?_⟩
  rw [Server.convertToEnvelope]
  dsimp only
  rw [hproc, happ, htime]
  rfl

theorem mem_elements (order : MapOrder (GoMap String)) {x : Element} :
    x ∈ elements lib (order.visit (structuredDataOf msg)) ↔ Carries lib msg x := by
  rw [elements, List.mem_filterMap]
  constructor
  · rintro ⟨⟨envType, payload⟩, hp, hx⟩
    exact ⟨envType, payload, (mem_visit order).mp hp, toOption_eq_some.mp hx⟩
  · rintro ⟨envType, payload, hp, hx⟩
    exact ⟨⟨envType, payload⟩, (mem_visit order).mpr hp, toOption_eq_some.mpr hx⟩

def looped (lib : Library) (msg : SyslogMessage) (env : Envelope) (orders : Orders) : Envelope :=
  (elements lib (orders.structuredData.visit (structuredDataOf msg))).foldl
    (Element.apply orders.tags) env

theorem convert_of_convertible (haddressed : Addressed msg)
    (hconvertible : ¬ Inconvertible lib msg) :
    ∃ env, env.message = .unset ∧
      ∀ orders, s.convertToEnvelope lib orders (some msg) =
        s.finishEnvelope (looped lib msg env orders) msg := by
  obtain ⟨env, henv, hconvert⟩ := @convert_of_addressed lib s msg haddressed
  refine ⟨env, henv, fun orders => ?_⟩
  have hall : ∀ p ∈ orders.structuredData.visit (structuredDataOf msg), ∃ x,
      elementOf lib p.1 p.2 = .ok x := by
    intro p hp
    cases helement : elementOf lib p.1 p.2 with
    | error err => exact absurd ⟨p.1, p.2, err, (mem_visit _).mp hp, helement⟩ hconvertible
    | ok x => exact ⟨x, rfl⟩
  rw [hconvert, convertElements_ok hall]
  rfl

theorem convert_of_inconvertible (h : Inconvertible lib msg) (orders : Orders) :
    envelopeOf (s.convertToEnvelope lib orders (some msg)) = none := by
  by_cases haddressed : Addressed msg
  · obtain ⟨env, -, hconvert⟩ := @convert_of_addressed lib s msg haddressed
    obtain ⟨envType, payload, err, hp, herr⟩ := h
    have hmem : (⟨envType, payload⟩ : Σ _ : String, GoMap String) ∈
        orders.structuredData.visit (structuredDataOf msg) := (mem_visit _).mpr hp
    obtain ⟨err', herr'⟩ := @convertElements_error lib orders _ _ hmem err herr env
    rw [hconvert, herr']
    rfl
  · exact convert_of_not_addressed haddressed orders

end outcome

section messages

variable {s : Server} {msg : SyslogMessage} {env : Envelope} {order : MapOrder String}
    {xs : List Element}

theorem messageOf_ok {convert : Envelope → GoMap String → Except String Envelope}
    {payload : GoMap String} {m : Message} (h : messageOf convert payload = .ok (.message m)) :
    ∃ env, convert (bare 0) payload = .ok env ∧ env.message = m := by
  rw [messageOf] at h
  cases hconvert : convert (bare 0) payload with
  | error err =>
      rw [hconvert] at h
      cases h
  | ok env =>
      rw [hconvert] at h
      cases h
      exact ⟨env, rfl, rfl⟩

theorem message_ne_unset {envType : String} {payload : GoMap String} {m : Message}
    (h : elementOf lib envType payload = .ok (.message m)) : m ≠ .unset := by
  rw [elementOf] at h
  split_ifs at h
  · obtain ⟨env, hconvert, rfl⟩ := messageOf_ok h
    obtain ⟨delta, -, hconvert⟩ := bind_ok hconvert
    obtain ⟨total, -, hconvert⟩ := bind_ok hconvert
    cases hconvert
    exact fun h => nomatch h
  · obtain ⟨env, hconvert, rfl⟩ := messageOf_ok h
    rw [convertGauge] at hconvert
    cases hunit : payload.lookup "unit" with
    | none =>
        rw [hunit] at hconvert
        cases hconvert
    | some unit =>
        rw [hunit] at hconvert
        obtain ⟨value, -, hconvert⟩ := bind_ok hconvert
        cases hconvert
        exact fun h => nomatch h
  · obtain ⟨env, hconvert, rfl⟩ := messageOf_ok h
    cases hconvert
    exact fun h => nomatch h
  · obtain ⟨env, hconvert, rfl⟩ := messageOf_ok h
    obtain ⟨start, -, hconvert⟩ := bind_ok hconvert
    obtain ⟨stop, -, hconvert⟩ := bind_ok hconvert
    cases hconvert
    exact fun h => nomatch h
  · cases h

theorem foldl_message_of_none (h : ∀ m, .message m ∉ xs) :
    (xs.foldl (Element.apply order) env).message = env.message := by
  induction xs generalizing env with
  | nil => rfl
  | cons x xs ih =>
      rw [List.foldl_cons, ih fun m hm => h m (List.mem_cons_of_mem _ hm)]
      cases x with
      | message m => exact absurd List.mem_cons_self (h m)
      | tags payload => rfl

theorem foldl_message_ne_unset {m : Message} (hm : .message m ∈ xs)
    (hset : ∀ m, .message m ∈ xs → m ≠ .unset) :
    (xs.foldl (Element.apply order) env).message ≠ .unset := by
  induction xs using List.reverseRecOn with
  | nil => cases hm
  | append_singleton xs x ih =>
      rw [List.foldl_append]
      cases x with
      | message m' => exact hset m' (List.mem_append_right _ (List.mem_singleton_self _))
      | tags payload =>
          refine ih ?_ fun m hm => hset m (List.mem_append_left _ hm)
          rcases List.mem_append.mp hm with hmem | hmem
          · exact hmem
          · cases List.mem_singleton.mp hmem

theorem looped_unset (henv : env.message = .unset) (h : ∀ m, ¬ Carries lib msg (.message m))
    (orders : Orders) :
    (looped lib msg env orders).message = .unset := by
  rw [looped, foldl_message_of_none fun m hm => h m ((mem_elements _).mp hm), henv]

theorem looped_ne_unset {m : Message} (h : Carries lib msg (.message m)) (orders : Orders) :
    (looped lib msg env orders).message ≠ .unset := by
  refine foldl_message_ne_unset ((mem_elements _).mpr h) fun m hm => ?_
  obtain ⟨envType, payload, -, helement⟩ := (mem_elements _).mp hm
  exact message_ne_unset helement

theorem finish_of_message (h : env.message ≠ .unset) :
    s.finishEnvelope env msg = .ok (.ok env) := by
  rw [Server.finishEnvelope]
  split
  · contradiction
  · change Except.ok (if env.message = .unset then _ else _) = _
    rw [if_neg h]

theorem finish_of_text {bytes : List UInt8} {priority : UInt8} (hmessage : msg.message = some bytes)
    (hpriority : msg.priority = some priority) :
    ∃ m, ∀ env, env.message = .unset → s.finishEnvelope env msg =
      .ok (.ok { env with message := m }) := by
  refine ⟨.log (if s.trimMessageWhitespace then trimSpace bytes else trimNewline bytes)
    (typeFromPriority priority), fun env henv => ?_⟩
  rw [Server.finishEnvelope, henv, hmessage]
  dsimp only
  rw [Server.convertMessage, hpriority]
  rfl

theorem finish_of_nothing (henv : env.message = .unset)
    (h : msg.message = none ∨ msg.priority = none) :
    envelopeOf (s.finishEnvelope env msg) = none := by
  rw [Server.finishEnvelope, henv]
  cases hmessage : msg.message with
  | none =>
      change envelopeOf (Except.ok (if env.message = .unset then _ else _)) = _
      rw [if_pos henv]
      rfl
  | some bytes =>
      rw [hmessage] at h
      dsimp only
      rw [Server.convertMessage, h.resolve_left (Option.some_ne_none _)]
      rfl

end messages

section orders

variable {s : Server} {msg : SyslogMessage}

theorem orderFree_of_agree (haddressed : Addressed msg) (hconvertible : ¬ Inconvertible lib msg)
    (h : ∀ x y, Carries lib msg x → Carries lib msg y → Agree x y) : OrderFree lib s msg := by
  intro orders orders'
  obtain ⟨env, -, hconvert⟩ := @convert_of_convertible lib s msg haddressed hconvertible
  have hperm : (elements lib (orders.structuredData.visit (structuredDataOf msg))).Perm
      (elements lib (orders'.structuredData.visit (structuredDataOf msg))) :=
        (visit_perm _ _ _).filterMap _
  have hcomm : ∀ x ∈ elements lib (orders.structuredData.visit (structuredDataOf msg)),
      ∀ y ∈ elements lib (orders.structuredData.visit (structuredDataOf msg)), ∀ env,
        Element.apply orders.tags (Element.apply orders.tags env x) y =
          Element.apply orders.tags (Element.apply orders.tags env y) x := by
    intro x hx y hy env
    exact apply_comm orders.tags (h x y ((mem_elements _).mp hx) ((mem_elements _).mp hy)) env
  rw [hconvert orders, hconvert orders', looped, looped, apply_order orders'.tags orders.tags,
    hperm.foldl_eq' hcomm env]

theorem exists_last {x : Element} (hx : Carries lib msg x) (env : Envelope) :
    ∃ orders before, looped lib msg env orders = Element.apply .any before x := by
  obtain ⟨envType, payload, hp, hx⟩ := hx
  obtain ⟨order, rest, horder⟩ := exists_visit_concat hp
  refine ⟨⟨order, .any⟩, (elements lib rest).foldl (Element.apply .any) env, ?_⟩
  have hlast : elements lib [⟨envType, payload⟩] = [x] := by
    simp only [elements, List.filterMap_cons, hx, List.filterMap_nil]
    rfl
  rw [looped]
  dsimp only
  rw [horder, elements, List.filterMap_append, List.foldl_append]
  exact congrArg (List.foldl (Element.apply .any) _) hlast

theorem agree_of_orderFree (h : OrderFree lib s msg) (haddressed : Addressed msg)
    (hconvertible : ¬ Inconvertible lib msg) (hspeech : ¬ Speechless lib msg) {x y : Element}
    (hx : Carries lib msg x) (hy : Carries lib msg y) : Agree x y := by
  obtain ⟨env, henv, hconvert⟩ := @convert_of_convertible lib s msg haddressed hconvertible
  obtain ⟨orders, before, hlast⟩ := exists_last hx env
  obtain ⟨orders', before', hlast'⟩ := exists_last hy env
  have hsame := h orders orders'
  rw [hconvert orders, hconvert orders'] at hsame
  by_cases hmessage : ∃ m, Carries lib msg (.message m)
  · -- the loop has set the message, and the envelope is what it left
    obtain ⟨m, hm⟩ := hmessage
    rw [finish_of_message (looped_ne_unset hm orders),
      finish_of_message (looped_ne_unset hm orders'), hlast, hlast'] at hsame
    have heq := Option.some.inj hsame
    exact agree_of_last (congrArg Envelope.message heq) (congrArg Envelope.tags heq)
  · -- the text gives the message, and the elements are tags
    have hnone : ∀ m, ¬ Carries lib msg (.message m) := not_exists.mp hmessage
    obtain ⟨hbytes, hpriority⟩ := not_or.mp (not_and.mp hspeech hnone)
    obtain ⟨bytes, hbytes⟩ := Option.ne_none_iff_exists'.mp hbytes
    obtain ⟨priority, hpriority⟩ := Option.ne_none_iff_exists'.mp hpriority
    obtain ⟨m, hfinish⟩ := @finish_of_text s msg bytes priority hbytes hpriority
    have hunset := looped_unset henv hnone
    have hmsg := (hunset orders).trans (hunset orders').symm
    rw [hfinish _ (hunset orders), hfinish _ (hunset orders')] at hsame
    have htags := congrArg Envelope.tags (Option.some.inj hsame)
    rw [hlast, hlast'] at hmsg htags
    exact agree_of_last hmsg htags

/-- The conversion is free of the orders if and only if it fails anyway, or any
two elements agree: on the message, or on the tags that both have. -/
theorem orderFree_iff_agree (lib : Library) (s : Server) (msg : SyslogMessage) :
    OrderFree lib s msg ↔ ¬ Addressed msg ∨ Inconvertible lib msg ∨ Speechless lib msg ∨
      ∀ x y, Carries lib msg x → Carries lib msg y → Agree x y := by
  by_cases haddressed : Addressed msg
  · rw [or_iff_right (not_not.mpr haddressed)]
    by_cases hconvertible : Inconvertible lib msg
    · refine iff_of_true (fun orders orders' => ?_) (.inl hconvertible)
      rw [convert_of_inconvertible hconvertible, convert_of_inconvertible hconvertible]
    · rw [or_iff_right hconvertible]
      by_cases hspeech : Speechless lib msg
      · refine iff_of_true (fun orders orders' => ?_) (.inl hspeech)
        obtain ⟨env, henv, hconvert⟩ := @convert_of_convertible lib s msg haddressed hconvertible
        have hunset := looped_unset henv hspeech.1
        rw [hconvert orders, hconvert orders', finish_of_nothing (hunset orders) hspeech.2,
          finish_of_nothing (hunset orders') hspeech.2]
      · rw [or_iff_right hspeech]
        exact ⟨fun h x y => agree_of_orderFree h haddressed hconvertible hspeech,
          orderFree_of_agree haddressed hconvertible⟩
  · refine iff_of_true (fun orders orders' => ?_) (.inl haddressed)
    rw [convert_of_not_addressed haddressed, convert_of_not_addressed haddressed]

def titled (title : String) : GoMap String := (∅ : GoMap String).insert "title" title

def twoEvents : SyslogMessage where
  priority := some 14
  version := 1
  timestamp := some 0
  appname := some "app"
  procID := some "1"
  structuredData :=
    some (((∅ : GoMap (GoMap String)).insert "event@1" (titled "a")).insert "event@2" (titled "b"))
  message := none

theorem second_event_depends_on_order : ¬ OrderFree plainLibrary ⟨true, [], 0, 0⟩ twoEvents := by
  intro h
  have hfirst : Carries plainLibrary twoEvents (.message (.event "a" "")) :=
    ⟨"event@1", titled "a", by decide +kernel, rfl⟩
  have hsecond : Carries plainLibrary twoEvents (.message (.event "b" "")) :=
    ⟨"event@2", titled "b", by decide +kernel, rfl⟩
  have hconvertible : ¬ Inconvertible plainLibrary twoEvents := by
    rintro ⟨envType, payload, err, hp, herr⟩
    rw [structuredDataOf, twoEvents, Option.getD_some, lookup_insert_eq, lookup_insert_eq] at hp
    split_ifs at hp with hsnd hfst
    · subst hsnd
      cases herr
    · subst hfst
      cases herr
    · rw [Finmap.lookup_empty] at hp
      cases hp
  have hagree := agree_of_orderFree h ⟨Option.some_ne_none _, Option.some_ne_none _,
      Option.some_ne_none _⟩ hconvertible
    (fun hspeech => hspeech.1 _ hfirst) hfirst hsecond
  exact absurd hagree (by simp [Agree])

end orders

end LogCache.SyslogOrder
