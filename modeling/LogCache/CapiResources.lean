import LogCache.CapiClient
import LogCache.NetUrl

namespace LogCache.CapiResources

open CapiClient NetUrl Runs

section requests

def utf8 (s : String) : Bytes := s.toUTF8.data.toList

theorem utf8_append (s t : String) : utf8 (s ++ t) = utf8 s ++ utf8 t := by
  rw [utf8, utf8, utf8, ← Array.toList_append, ← ByteArray.data_append]
  exact congrArg (fun bytes : ByteArray => bytes.data.toList) String.toByteArray_append

def removeEmptyPort (host : Bytes) : Bytes :=
  if byte ':' ∈ afterLast (byte ']') host ∧ host.getLast? = some (byte ':')
    then host.dropLast else host

def newRequest (url : Bytes) : Except ParseError URL :=
  (fun u => { u with host := removeEmptyPort u.host }) <$> parse url

inductive Resource
  | app
  | serviceInstance

def Resource.path : Resource → String
  | .app => "/v3/apps/"
  | .serviceInstance => "/v2/service_instances/"

def requestFor (addr : Bytes) (resource : Resource) (sourceID : Bytes) : Except ParseError URL :=
  newRequest (addr ++ utf8 resource.path ++ sourceID)

def environment (respond : Request → Option Nat) : Environment :=
  ⟨fun url => (newRequest (utf8 url)).toOption.isSome, respond⟩

theorem hasResource_asks_iff (c : CAPIClient) (respond : Request → Option Nat) (resource : Resource)
    (sourceID authToken : String) :
    (c.hasResource (environment respond) resource.path sourceID authToken).1 ≠ [] ↔
      ∃ url, requestFor (utf8 c.addr) resource (utf8 sourceID) = .ok url := by
  have hurl : utf8 (c.addr ++ resource.path ++ sourceID) = utf8 c.addr ++ utf8 resource.path ++
      utf8 sourceID := by
    rw [utf8_append, utf8_append]
  rw [CAPIClient.hasResource, requestFor, ← hurl, environment]
  simp only
  cases newRequest (utf8 (c.addr ++ resource.path ++ sourceID)) with
  | error err => simp [Except.toOption]
  | ok url => simp [Except.toOption]

end requests

section paths

def Resource.collection : Resource → Bytes
  | .app => ascii ['v', '3', '/', 'a', 'p', 'p', 's']
  | .serviceInstance =>
      ascii ['v', '2', '/', 's', 'e', 'r', 'v', 'i', 'c', 'e', '_', 'i', 'n', 's', 't', 'a', 'n',
        'c', 'e', 's']

theorem utf8_path (resource : Resource) :
    utf8 resource.path = byte '/' :: resource.collection ++ [byte '/'] := by
  cases resource <;> rfl

theorem collection_spec (resource : Resource) :
    2 ≤ resource.collection.length ∧ byte '#' ∉ resource.collection ∧
      byte '?' ∉ resource.collection := by
  cases resource <;> decide

def base (addr : Bytes) (resource : Resource) : Bytes := addr ++ byte '/' :: resource.collection

theorem requestFor_ok {addr sourceID : Bytes} {resource : Resource} {url : URL}
    (h : requestFor addr resource sourceID = .ok url) :
    ∃ url', parse (base addr resource ++ byte '/' :: sourceID) = .ok url' ∧ url.path = url'.path ∧
      url.forceQuery = url'.forceQuery ∧ url.rawQuery = url'.rawQuery ∧
        url.fragment = url'.fragment := by
  rw [requestFor, newRequest] at h
  obtain ⟨url', hurl, rfl⟩ := map_ok h
  refine ⟨url', ?_, rfl, rfl, rfl, rfl⟩
  have hsplit : addr ++ utf8 resource.path ++ sourceID = base addr resource ++ byte '/' ::
      sourceID := by
    rw [utf8_path, base]
    simp
  rw [← hsplit]
  exact hurl

/-- What is appended to the address becomes part of the path: there is no
query, no fragment and no scheme without a slash after it. -/
def KeepsPath (addr : Bytes) : Prop :=
  byte '#' ∉ addr ∧ byte '?' ∉ addr ∧
    ∀ scheme rest, getScheme addr = .ok (scheme, rest) → scheme = [] ∨ rest = [] ∨
      rest.head? = some (byte '/')

def Plain (sourceID : Bytes) : Prop :=
  byte '/' ∉ sourceID ∧ byte '?' ∉ sourceID ∧ byte '#' ∉ sourceID ∧ byte '%' ∉ sourceID

/-- The URL is about the source ID: it is the last segment of the path, and
nothing is cut off. -/
def IsAbout (url : URL) (sourceID : Bytes) : Prop :=
  lastSegment url.path = sourceID ∧ url.forceQuery = false ∧ url.rawQuery = [] ∧ url.fragment = []

section address

variable {addr sourceID : Bytes} {resource : Resource} {url : URL}

theorem mem_base_iff {c : UInt8} (hc : c ≠ byte '/') (hc' : c ∉ resource.collection) :
    c ∈ base addr resource ↔ c ∈ addr := by
  simp [base, hc, hc']

theorem getScheme_base {scheme rest : Bytes} :
    getScheme (base addr resource) = .ok (scheme, rest) ↔
      ∃ rest', getScheme addr = .ok (scheme, rest') ∧
        rest = rest' ++ byte '/' :: resource.collection := by
  rw [base, getScheme_append_slash]
  cases getScheme addr with
  | error err => simp
  | ok r => simp [Prod.ext_iff, and_comm, eq_comm]

theorem path_of_keepsPath (haddr : KeepsPath addr) {scheme rest : Bytes}
    (hscheme : getScheme addr = .ok (scheme, rest))
    (h : requestFor addr resource sourceID = .ok url) :
    (∃ p q, unescape .path (splitAuthority (scheme.map toLower)
      (rest ++ byte '/' :: resource.collection)).2 = .ok p ∧
      unescape .path (stem sourceID) = .ok q ∧ url.path = p ++ byte '/' :: q) ∧
    (byte '?' ∉ sourceID → byte '#' ∉ sourceID →
      url.forceQuery = false ∧ url.rawQuery = [] ∧ url.fragment = []) := by
  obtain ⟨hhash, hquery, hroot⟩ := haddr
  obtain ⟨hlength, hnohash, hnoquery⟩ := collection_spec resource
  obtain ⟨url', hurl, hpath, hforce, hraw, hfragment⟩ := requestFor_ok h
  have hbase : getScheme (base addr resource) =
      .ok (scheme, rest ++ byte '/' :: resource.collection) :=
    getScheme_base.mpr ⟨rest, hscheme, rfl⟩
  have hquery' : byte '?' ∉ rest ++ byte '/' :: resource.collection := by
    have hrest : byte '?' ∉ rest :=
      fun hmem => hquery ((mem_getScheme_iff hscheme (by decide) (by decide)).mp hmem)
    simp [hrest, hnoquery, show byte '?' ≠ byte '/' by decide]
  have hroot' : (rest ++ byte '/' :: resource.collection).head? = some (byte '/') ∨
      scheme = [] := by
    rcases hroot scheme rest hscheme with hnone | rfl | hhead
    · exact Or.inr hnone
    · exact Or.inl rfl
    · exact Or.inl (by rw [List.head?_append, hhead]; rfl)
  have hparts := parse_append_slash ((mem_base_iff (by decide) hnohash).not.mpr hhash) hbase hquery'
    (by simp; omega) hroot' hurl
  rw [hpath, hforce, hraw, hfragment]
  exact hparts

theorem path_of_not_keepsPath (haddr : ¬ KeepsPath addr) {sourceID' : Bytes} {url' : URL}
    (h : requestFor addr resource sourceID = .ok url)
    (h' : requestFor addr resource sourceID' = .ok url') :
    url.path = url'.path := by
  obtain ⟨_, hnohash, _⟩ := collection_spec resource
  obtain ⟨v, hv, hpath, _⟩ := requestFor_ok h
  obtain ⟨v', hv', hpath', _⟩ := requestFor_ok h'
  rw [hpath, hpath']
  refine parse_path_const hv hv' ?_
  by_cases hhash : byte '#' ∈ addr
  · exact Or.inl ((mem_base_iff (by decide) hnohash).mpr hhash)
  refine Or.inr fun scheme rest hbase => ?_
  obtain ⟨rest', hscheme, rfl⟩ := getScheme_base.mp hbase
  by_cases hquery : byte '?' ∈ addr
  · exact Or.inl (List.mem_append_left _ ((mem_getScheme_iff hscheme (by decide)
      (by decide)).mpr hquery))
  refine Or.inr ⟨by simp, ?_⟩
  have hrootless : ¬ (scheme = [] ∨ rest' = [] ∨ rest'.head? = some (byte '/')) := by
    intro hroot
    refine haddr ⟨hhash, hquery, fun scheme' rest'' hscheme' => ?_⟩
    cases hscheme.symm.trans hscheme'
    exact hroot
  push Not at hrootless
  obtain ⟨hsome, hne, hhead⟩ := hrootless
  cases rest' with
  | nil => exact absurd rfl hne
  | cons c rest' => exact ⟨hhead, hsome⟩

theorem exists_getScheme (haddr : KeepsPath addr)
    (h : requestFor addr resource sourceID = .ok url) :
    ∃ scheme rest, getScheme addr = .ok (scheme, rest) := by
  obtain ⟨_, hnohash, _⟩ := collection_spec resource
  obtain ⟨url', hurl, _⟩ := requestFor_ok h
  obtain ⟨scheme, rest, _, hbase, _⟩ :=
    parse_parts ((mem_base_iff (by decide) hnohash).not.mpr haddr.1) hurl
  obtain ⟨rest', hscheme, _⟩ := getScheme_base.mp hbase
  exact ⟨scheme, rest', hscheme⟩

theorem plain_of_lastSegment {p q : Bytes} (hq : unescape .path (stem sourceID) = .ok q)
    (h : lastSegment (p ++ byte '/' :: q) = sourceID) : Plain sourceID := by
  rw [lastSegment_append_slash] at h
  have hslash : byte '/' ∉ sourceID := h ▸ not_mem_lastSegment q
  obtain ⟨hle, hpercent, _⟩ := unescape_spec hq
  have hlength : sourceID.length ≤ q.length := h ▸ length_lastSegment_le q
  have hstem := length_stem_le sourceID
  obtain ⟨hquery, hhash⟩ :=
    not_mem_of_length_stem (show (stem sourceID).length = sourceID.length by omega)
  have hnot := hpercent (by omega)
  rw [stem_of_not_mem hquery hhash] at hnot
  exact ⟨hslash, hquery, hhash, hnot⟩

theorem isAbout_of_plain (haddr : KeepsPath addr) (hplain : Plain sourceID) {scheme rest : Bytes}
    (hscheme : getScheme addr = .ok (scheme, rest))
    (h : requestFor addr resource sourceID = .ok url) :
    IsAbout url sourceID ∧ ∃ p,
      unescape .path (splitAuthority (scheme.map toLower)
        (rest ++ byte '/' :: resource.collection)).2 = .ok p ∧
        url.path = p ++ byte '/' :: sourceID := by
  obtain ⟨hslash, hquery, hhash, hpercent⟩ := hplain
  obtain ⟨⟨p, q, hp, hq, hpath⟩, hnothing⟩ := path_of_keepsPath haddr hscheme h
  rw [stem_of_not_mem hquery hhash] at hq
  obtain rfl := (unescape_spec hq).2.2 hpercent
  refine ⟨⟨?_, hnothing hquery hhash⟩, p, hp, hpath⟩
  rw [hpath, lastSegment_append_slash, lastSegment_of_not_mem hslash]

end address

/-- The requests about two source IDs have different paths, each ending in its
ID with nothing cut off, exactly when the address keeps the path and both IDs
are plain. -/
theorem distinct_resources_iff (addr : Bytes) (resource : Resource) (s₁ s₂ : Bytes) (hne : s₁ ≠ s₂)
    (u₁ u₂ : URL) (h₁ : requestFor addr resource s₁ = .ok u₁)
    (h₂ : requestFor addr resource s₂ = .ok u₂) :
    (u₁.path ≠ u₂.path ∧ IsAbout u₁ s₁ ∧ IsAbout u₂ s₂) ↔ KeepsPath addr ∧ Plain s₁ ∧ Plain s₂ := by
  constructor
  · rintro ⟨hpath, habout₁, habout₂⟩
    by_cases haddr : KeepsPath addr
    · obtain ⟨scheme, rest, hscheme⟩ := exists_getScheme haddr h₁
      obtain ⟨⟨p₁, q₁, _, hq₁, hpath₁⟩, _⟩ := path_of_keepsPath haddr hscheme h₁
      obtain ⟨⟨p₂, q₂, _, hq₂, hpath₂⟩, _⟩ := path_of_keepsPath haddr hscheme h₂
      exact ⟨haddr, plain_of_lastSegment hq₁ (hpath₁ ▸ habout₁.1),
        plain_of_lastSegment hq₂ (hpath₂ ▸ habout₂.1)⟩
    · exact absurd (path_of_not_keepsPath haddr h₁ h₂) hpath
  · rintro ⟨haddr, hplain₁, hplain₂⟩
    obtain ⟨scheme, rest, hscheme⟩ := exists_getScheme haddr h₁
    obtain ⟨habout₁, p₁, hp₁, hpath₁⟩ := isAbout_of_plain haddr hplain₁ hscheme h₁
    obtain ⟨habout₂, p₂, hp₂, hpath₂⟩ := isAbout_of_plain haddr hplain₂ hscheme h₂
    cases hp₁.symm.trans hp₂
    refine ⟨?_, habout₁, habout₂⟩
    rw [hpath₁, hpath₂]
    intro heq
    exact hne (List.cons.inj (List.append_cancel_left heq)).2

theorem distinct_resources_plain :
    ∃ u₁ u₂, requestFor (utf8 "http://capi") .app (utf8 "a") = .ok u₁ ∧
      requestFor (utf8 "http://capi") .app (utf8 "b") = .ok u₂ ∧ u₁.path ≠ u₂.path ∧
      IsAbout u₁ (utf8 "a") ∧ IsAbout u₂ (utf8 "b") := by
  refine ⟨_, _, rfl, rfl, (distinct_resources_iff (utf8 "http://capi") .app (utf8 "a") (utf8 "b")
    (by decide +kernel)
    _ _ rfl rfl).mpr ⟨⟨by decide +kernel, by decide +kernel, ?_⟩, ?_, ?_⟩⟩
  · intro scheme rest hscheme
    cases hscheme
    exact Or.inr (Or.inr rfl)
  · exact ⟨by decide +kernel, by decide +kernel, by decide +kernel, by decide +kernel⟩
  · exact ⟨by decide +kernel, by decide +kernel, by decide +kernel, by decide +kernel⟩

/-- Different source IDs with the same path: a question mark begins a query,
and an escaped letter is the letter. -/
theorem resources_collide :
    (∃ u₁ u₂, requestFor (utf8 "http://capi") .app (utf8 "a") = .ok u₁ ∧
      requestFor (utf8 "http://capi") .app (utf8 "a?b") = .ok u₂ ∧ u₁.path = u₂.path) ∧
    ∃ u₁ u₂, requestFor (utf8 "http://capi") .serviceInstance (utf8 "a") = .ok u₁ ∧
      requestFor (utf8 "http://capi") .serviceInstance (utf8 "%61") = .ok u₂ ∧ u₁ = u₂ :=
  ⟨⟨_, _, rfl, rfl, by decide +kernel⟩, _, _, rfl, rfl, by decide +kernel⟩

end paths

end LogCache.CapiResources
