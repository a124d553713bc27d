import LogCache.Jose
import LogCache.KeyRefresh

namespace LogCache.UaaRead

open Base64 Envelopes UaaClient Jose

structure Claims where
  scope : List String
  exp : Int64

/-- `time.Unix(sec, 0)`, in nanoseconds since 1970. A time counts its seconds from
the year 1, in 64 bits that wrap. -/
def unixTime (sec : Int64) : Int := ((sec + 62135596800).toInt - 62135596800) * 1000000000

structure Oauth2ClientContext where
  isAdmin : Bool
  token : List UInt8
  expiresAt : Int
deriving DecidableEq

structure Deps where
  uaa : Environment
  crypto : Crypto
  decodeClaims : List UInt8 → Except String Claims
  timeString : Int → String

structure Moment where
  orders : Orders
  clock : Clock
  now : Int

inductive Outcome
  | accepted (c : Oauth2ClientContext)
  | failed (err : String)
  | panicked

structure Result where
  client : UAAClient
  refresh : Bool
  outcome : Outcome

def lower (c : UInt8) : UInt8 := if 65 ≤ c ∧ c ≤ 90 then c + 32 else c

def bearer : List UInt8 := [98, 101, 97, 114, 101, 114]

def isSpace (c : UInt8) : Bool := c == 9 || c == 10 || c == 12 || c == 13 || c == 32

def trimBearer (authToken : List UInt8) : List UInt8 :=
  if (authToken.take 6).map lower = bearer ∧ (authToken.drop 6).head?.any isSpace then
    (authToken.drop 6).dropWhile isSpace
  else authToken

def text : Failure → String
  | .algorithm alg => "unsupported algorithm: " ++ alg
  | .unknownTokenKey kid => "using unknown token key: " ++ kid
  | .other text => text
  | .panic => ""

def renews : Failure → Bool
  | .algorithm _ => false
  | .unknownTokenKey _ => false
  | .other _ => true
  | .panic => false

variable (d : Deps) (t : Moment)

def loadOrFetchPublicKey (keyId : String) (c : UAAClient) : Except Failure PublicKey × UAAClient :=
  match c.publicKeys.lookup keyId with
  | some publicKey => (.ok publicKey, c)
  | none =>
      let c := (refreshTokenKeys d.uaa t.orders t.clock c).1
      match c.publicKeys.lookup keyId with
      | some publicKey => (.ok publicKey, c)
      | none => (.error (.unknownTokenKey keyId), c)

/-- The function that `Read` hands to the decoder. A type assertion that does
not hold panics. -/
def keyCallback (headers : GoMap HeaderValue) (c : UAAClient) :
    Except Failure PublicKey × UAAClient :=
  match headers.lookup "alg" with
  | some (.string alg) =>
      if alg ≠ "RS256" ∧ alg ≠ "HS256" then (.error (.algorithm alg), c)
      else
        match headers.lookup "kid" with
        | some (.string keyId) => loadOrFetchPublicKey d t keyId c
        | _ => (.error .panic, c)
  | _ => (.error .panic, c)

def isAdmin (scope : List String) : Bool :=
  scope.any fun s => s == "doppler.firehose" || s == "logs.admin"

def readPayload (token payload : List UInt8) : Outcome :=
  match d.decodeClaims payload with
  | .error err =>
      .failed ("failed to unmarshal token: unable to decode json token from UAA: " ++ err)
  | .ok claims =>
      if unixTime claims.exp < t.now then
        .failed ("token is expired, exp = " ++ d.timeString (unixTime claims.exp))
      else .accepted ⟨isAdmin claims.scope, token, unixTime claims.exp⟩

def read (token : List UInt8) (c : UAAClient) : Result :=
  if token = [] then ⟨c, false, .failed "missing token"⟩
  else
    match decode d.crypto (keyCallback d t) (trimBearer token) c with
    | (.error .panic, c) => ⟨c, false, .panicked⟩
    | (.error failure, c) =>
        ⟨c, renews failure, .failed ("failed to decode token: " ++ text failure)⟩
    | (.ok payload, c) => ⟨c, false, readPayload d t token payload⟩

section acceptance

variable {d : Deps} {t : Moment}

structure Decoding where
  headers : GoMap HeaderValue
  alg : String
  keyId : String
  publicKey : PublicKey

structure Decodes (d : Deps) (t : Moment) (c c' : UAAClient) (header payload signature : List UInt8)
    (x : Decoding) : Prop where
  unmarshals : d.crypto.unmarshal header = .ok x.headers
  hasAlg : x.headers.lookup "alg" = some (.string x.alg)
  hasKid : x.headers.lookup "kid" = some (.string x.keyId)
  hasKey : loadOrFetchPublicKey d t x.keyId c = (.ok x.publicKey, c')
  verified : Verified d.crypto x.alg (serialize [header, payload]) signature x.publicKey

theorem alg_of_verified {crypto : Crypto} {alg : String} {secured signature : List UInt8}
    {key : PublicKey} (h : Verified crypto alg secured signature key) :
    alg = "RS256" ∨ alg = "HS256" := by
  cases h with
  | rsa _ halg => exact .inl halg
  | hmac _ halg => exact .inr halg
  | unsigned _ halg => exact .inr halg

theorem keyCallback_ok {headers : GoMap HeaderValue} {alg : String}
    (halg : headers.lookup "alg" = some (.string alg)) {c c' : UAAClient} {publicKey : PublicKey} :
    keyCallback d t headers c = (.ok publicKey, c') ↔ (alg = "RS256" ∨ alg = "HS256") ∧
      ∃ keyId, headers.lookup "kid" = some (.string keyId) ∧
        loadOrFetchPublicKey d t keyId c = (.ok publicKey, c') := by
  rw [keyCallback, halg]
  dsimp only
  by_cases hsupported : alg = "RS256" ∨ alg = "HS256"
  · rw [if_neg (by tauto)]
    cases headers.lookup "kid" with
    | none => simp
    | some value => cases value <;> simp [hsupported]
  · rw [if_pos (by tauto)]
    simp [hsupported]

theorem verify_ok {header payload signature payload' : List UInt8} {c c' : UAAClient} :
    verify d.crypto (keyCallback d t) header payload signature c = (.ok payload', c') ↔
      payload' = payload ∧ ∃ x, Decodes d t c c' header payload signature x := by
  constructor
  · intro h
    rw [verify] at h
    cases hunmarshal : d.crypto.unmarshal header with
    | error err => simp [hunmarshal] at h
    | ok headers =>
        simp only [hunmarshal] at h
        split at h
        case h_2 => simp at h
        case h_1 alg halg =>
          split_ifs at h
          case neg => simp at h
          case pos =>
            cases hcall : keyCallback d t headers c with
            | mk result c₁ =>
                cases result with
                | error err => simp [hcall] at h
                | ok publicKey =>
                    obtain ⟨hsupported, keyId, hkid, hkey⟩ := (keyCallback_ok halg).mp hcall
                    simp only [hcall] at h
                    cases hverifier : verifier d.crypto alg
                      (serialize [header, payload]) signature publicKey with
                    | error err => simp [hverifier] at h
                    | ok u =>
                        simp only [hverifier, Prod.mk.injEq, Except.ok.injEq] at h
                        obtain ⟨rfl, rfl⟩ := h
                        have hverified := (verifier_iff hsupported _ _ _).mp hverifier
                        exact ⟨rfl, ⟨headers, alg, keyId, publicKey⟩, hunmarshal, halg, hkid,
                          hkey, hverified⟩
  · rintro ⟨rfl, x, hx⟩
    have hsupported := alg_of_verified hx.verified
    have hcall := (keyCallback_ok hx.hasAlg).mpr ⟨hsupported, x.keyId, hx.hasKid, hx.hasKey⟩
    have hmem : x.alg ∈ jwsHashers := by rcases hsupported with h | h <;> rw [h] <;> decide
    have hverifier := (verifier_iff hsupported _ _ _).mpr hx.verified
    simp only [verify, hx.unmarshals, hx.hasAlg, if_pos hmem, hcall, hverifier]

theorem decrypt_not_ok {header payload : List UInt8} {rest : List (List UInt8)} {c c' : UAAClient} :
    decrypt d.crypto (keyCallback d t) header rest c ≠ (.ok payload, c') := by
  intro h
  rw [decrypt] at h
  cases hunmarshal : d.crypto.unmarshal header with
  | error err => simp [hunmarshal] at h
  | ok headers =>
      simp only [hunmarshal] at h
      split at h
      case h_2 => simp at h
      case h_3 => simp at h
      case h_1 alg enc halg henc =>
        split_ifs at h with hjwa hjwe
        case neg => simp at h
        case neg => simp at h
        case pos =>
          cases hcall : keyCallback d t headers c with
          | mk result c₁ =>
              cases result with
              | error err => simp [hcall] at h
              | ok publicKey =>
                  obtain ⟨hsupported, _⟩ := (keyCallback_ok halg).mp hcall
                  rcases hsupported with rfl | rfl <;> exact absurd hjwa (by decide)

theorem decode_ok {token payload : List UInt8} {c c' : UAAClient} :
    decode d.crypto (keyCallback d t) token c = (.ok payload, c') ↔
      ∃ header signature x, parse token = .ok [header, payload, signature] ∧
        Decodes d t c c' header payload signature x := by
  constructor
  · intro h
    rw [decode] at h
    split at h
    case h_1 => simp at h
    case h_2 header payload' signature hparse =>
      obtain ⟨rfl, x, hx⟩ := verify_ok.mp h
      exact ⟨header, signature, x, hparse, hx⟩
    case h_3 => exact absurd h decrypt_not_ok
    case h_4 => simp at h
  · rintro ⟨header, signature, x, hparse, hx⟩
    simp only [decode, hparse]
    exact verify_ok.mpr ⟨rfl, x, hx⟩

theorem readPayload_accepted {token payload : List UInt8} {context : Oauth2ClientContext} :
    readPayload d t token payload = .accepted context ↔
      ∃ claims, d.decodeClaims payload = .ok claims ∧ t.now ≤ unixTime claims.exp ∧
        context = ⟨isAdmin claims.scope, token, unixTime claims.exp⟩ := by
  rw [readPayload]
  cases hclaims : d.decodeClaims payload with
  | error err => simp
  | ok claims =>
      dsimp only
      split_ifs with hexpired
      · simp only [Except.ok.injEq, exists_eq_left', false_iff, not_and]
        omega
      · simp only [Outcome.accepted.injEq, Except.ok.injEq, exists_eq_left']
        exact ⟨fun h => ⟨by omega, h.symm⟩, fun h => h.2.symm⟩

theorem read_outcome {token : List UInt8} {c : UAAClient} {context : Oauth2ClientContext} :
    (read d t token c).outcome = .accepted context ↔ token ≠ [] ∧ ∃ payload c',
      decode d.crypto (keyCallback d t) (trimBearer token) c = (.ok payload, c') ∧
        readPayload d t token payload = .accepted context := by
  rw [read]
  by_cases hempty : token = []
  · simp [hempty]
  · rw [if_neg hempty]
    rcases decode d.crypto (keyCallback d t) (trimBearer token) c with ⟨failure | payload, c'⟩
    · cases failure <;> simp
    · simp [hempty]

/-- When `Read` accepts a token, and what it says of its owner. The three ways
to verify it are an RSA signature, a code under a shared secret, and the empty
signature under the name of an RSA key. -/
theorem read_accepts_iff (d : Deps) (t : Moment) (c : UAAClient) (token : List UInt8)
    (context : Oauth2ClientContext) :
    (read d t token c).outcome = .accepted context ↔ token ≠ [] ∧
      ∃ header payload signature x c' claims,
        parse (trimBearer token) = .ok [header, payload, signature] ∧
        Decodes d t c c' header payload signature x ∧ d.decodeClaims payload = .ok claims ∧
        t.now ≤ unixTime claims.exp ∧
        context = ⟨isAdmin claims.scope, token, unixTime claims.exp⟩ := by
  rw [read_outcome]
  simp only [decode_ok, readPayload_accepted]
  constructor
  · rintro ⟨hempty, payload, c', ⟨header, signature, x, hparse, hx⟩, claims, hclaims⟩
    exact ⟨hempty, header, payload, signature, x, c', claims, hparse, hx, hclaims⟩
  · rintro ⟨hempty, header, payload, signature, x, c', claims, hparse, hx, hclaims⟩
    exact ⟨hempty, payload, c', ⟨header, signature, x, hparse, hx⟩, claims, hclaims⟩

end acceptance

section unsigned

variable {d : Deps} {t : Moment}

theorem trimBearer_of_no_space {token : List UInt8} (h : ∀ c ∈ token, isSpace c = false) :
    trimBearer token = token := by
  rw [trimBearer, if_neg]
  rintro ⟨_, hany⟩
  cases hhead : (token.drop 6).head? with
  | none => simp [hhead] at hany
  | some c =>
      have hmem : c ∈ token := List.mem_of_mem_drop (List.mem_of_mem_head? hhead)
      simp [hhead, h c hmem] at hany

theorem encode_no_space (data : List UInt8) : ∀ c ∈ base64urlEncode data, isSpace c = false := by
  have hall : ∀ v < 64, isSpace (toUrl (symbol v)) = false := by decide
  intro c hc
  rw [base64urlEncode_eq] at hc
  obtain ⟨c', hc', rfl⟩ := List.mem_map.mp hc
  obtain ⟨v, hv, rfl⟩ := symbols_isSymbol data c' hc'
  exact hall v hv

theorem serialize_no_space (header payload signature : List UInt8) :
    ∀ c ∈ serialize [header, payload, signature], isSpace c = false := by
  intro c hc
  simp only [serialize, List.intercalate, List.map_cons, List.map_nil, List.intersperse,
    List.flatten_cons, List.flatten_nil, List.append_nil, List.mem_append, List.mem_singleton] at hc
  rcases hc with hc | rfl | hc | rfl | hc
  · exact encode_no_space header c hc
  · rfl
  · exact encode_no_space payload c hc
  · rfl
  · exact encode_no_space signature c hc

/-- Anyone who knows the name of an RSA key in the cache can write a token with
any claims: the header says HS256 and the signature is left empty. -/
theorem unsigned_accepted (d : Deps) (t : Moment) (c : UAAClient) (header payload : List UInt8)
    (headers : GoMap HeaderValue) (keyId : String) (key : RsaPublicKey) (claims : Claims)
    (hheader : d.crypto.unmarshal header = .ok headers)
    (halg : headers.lookup "alg" = some (.string "HS256"))
    (hkid : headers.lookup "kid" = some (.string keyId))
    (hkey : c.publicKeys.lookup keyId = some (.rsa key))
    (hclaims : d.decodeClaims payload = .ok claims) (hexp : t.now ≤ unixTime claims.exp) :
    (read d t (serialize [header, payload, []]) c).outcome =
      .accepted ⟨isAdmin claims.scope, serialize [header, payload, []], unixTime claims.exp⟩ := by
  have hparse := parse_serialize (List.cons_ne_nil header [payload, []])
  have hload : loadOrFetchPublicKey d t keyId c = (.ok (.rsa key), c) := by
    rw [loadOrFetchPublicKey, hkey]
  have hdecode := decode_ok.mpr ⟨header, [], ⟨headers, "HS256", keyId, .rsa key⟩, hparse,
    ⟨hheader, halg, hkid, hload, .unsigned key rfl rfl⟩⟩
  refine read_outcome.mpr ⟨fun hnil => ?_, payload, c, ?_,
    readPayload_accepted.mpr ⟨claims, hclaims, hexp, rfl⟩⟩
  · rw [hnil] at hparse
    cases hparse
  · rwa [trimBearer_of_no_space (serialize_no_space header payload [])]

def sampleHeader : List UInt8 :=
  bytesOf "\x7b\"alg\":\"HS256\",\"kid\":\"key-1\"\x7d"

def userPayload : List UInt8 := bytesOf "\x7b\"scope\":[\"openid\"],\"exp\":1700003600\x7d"

def adminPayload : List UInt8 :=
  bytesOf "\x7b\"scope\":[\"logs.admin\"],\"exp\":1700003600\x7d"

def userMac : List UInt8 :=
  [123, 112, 98, 138, 177, 91, 122, 167, 75, 78, 44, 83, 78, 105, 41, 135, 90, 118, 202, 9, 91, 177,
    19, 192, 161, 131, 237, 163, 42, 178, 77, 143]

def sampleHeaders : GoMap HeaderValue :=
  ((∅ : GoMap HeaderValue).insert "alg" (.string "HS256")).insert "kid" (.string "key-1")

def sampleUnmarshal (header : List UInt8) : Except String (GoMap HeaderValue) :=
  if header = sampleHeader then .ok sampleHeaders else .error "unexpected end of JSON input"

def sampleMac (key text : List UInt8) : List UInt8 :=
  if key = "secret".toUTF8.toList ∧ text = serialize [sampleHeader, userPayload] then userMac
  else List.replicate 32 0

def sampleClaims (payload : List UInt8) : Except String Claims :=
  if payload = userPayload then .ok ⟨["openid"], 1700003600⟩
  else if payload = adminPayload then .ok ⟨["logs.admin"], 1700003600⟩
  else .error "EOF"

def sampleDeps : Deps where
  uaa := KeyRefresh.serving
    (bytesOf ("\x7b\"keys\":[\x7b\"kid\":\"key-1\",\"value\":\"secret\"," ++
      "\"alg\":\"HS256\"\x7d]\x7d"))
    [⟨"key-1", "secret", "HS256"⟩]
  crypto :=
    { unmarshal := sampleUnmarshal
      verifyPKCS1v15 := fun _ _ _ => .error "crypto/rsa: verification error"
      hmacSha256 := sampleMac
      verifyOther := fun _ _ _ _ => .error "crypto/rsa: verification error"
      decryptWith := fun _ _ _ => .error "crypto/rsa: decryption error" }
  decodeClaims := sampleClaims
  timeString := fun _ => "2023-11-14 23:13:20 +0000 UTC"

noncomputable def sampleMoment : Moment := ⟨⟨.any, .any⟩, KeyRefresh.later, 1700000001000000000⟩

def rsaClient : UAAClient :=
  ⟨"https://uaa/token_keys", (∅ : GoMap PublicKey).insert "key-1" (.rsa ⟨3233, 17⟩), 30000000000,
    "", "", 0⟩

theorem sampleUnmarshal_eq : sampleUnmarshal sampleHeader = .ok sampleHeaders := if_pos rfl

theorem unsigned_accepted_admin : ∃ token context,
    (read sampleDeps sampleMoment token rsaClient).outcome = .accepted context ∧
      context.isAdmin = true := by
  have hclaims : sampleClaims adminPayload = .ok ⟨["logs.admin"], 1700003600⟩ := by
    have hne : adminPayload ≠ userPayload := by decide
    rw [sampleClaims, if_neg hne, if_pos rfl]
  have hexp : sampleMoment.now ≤ unixTime 1700003600 :=
    show (1700000001000000000 : Int) ≤ unixTime 1700003600 by decide
  exact ⟨_, _, unsigned_accepted sampleDeps sampleMoment rsaClient sampleHeader adminPayload
    sampleHeaders "key-1" ⟨3233, 17⟩ ⟨["logs.admin"], 1700003600⟩ sampleUnmarshal_eq rfl rfl rfl
    hclaims hexp, by decide⟩

end unsigned

section served

inductive Event
  | read (d : Deps) (t : Moment) (token : List UInt8)
  | refresh (d : Deps) (t : Moment)

def Event.deps : Event → Deps
  | .read d _ _ => d
  | .refresh d _ => d

def step (c : UAAClient) : Event → UAAClient
  | .read d t token => (read d t token c).client
  | .refresh d t => (refreshTokenKeys d.uaa t.orders t.clock c).1

def Event.moment : Event → Moment
  | .read _ t _ => t
  | .refresh _ t => t

def Misses (d : Deps) (c : UAAClient) (token : List UInt8) : Prop :=
  ∃ header payload signature headers alg keyId,
    parse (trimBearer token) = .ok [header, payload, signature] ∧
    d.crypto.unmarshal header = .ok headers ∧ headers.lookup "alg" = some (.string alg) ∧
    (alg = "RS256" ∨ alg = "HS256") ∧ headers.lookup "kid" = some (.string keyId) ∧
    c.publicKeys.lookup keyId = none

def Refreshes (c : UAAClient) : Event → Prop
  | .read d _ token => Misses d c token
  | .refresh _ _ => True

structure Serves (c : UAAClient) (event : Event) (keyId : String) (publicKey : PublicKey) :
    Prop where
  refreshes : Refreshes c event
  sends : ¬ KeyRefresh.Throttled event.moment.clock c
  answers : ∃ tokenKeys, fetchTokenKeys event.deps.uaa c = .ok tokenKeys ∧
    ∃ k ∈ tokenKeys, k.keyId = keyId ∧ publicKeyOf event.deps.uaa k = .ok publicKey

variable {d : Deps} {t : Moment} {c : UAAClient}

theorem lookup_storeTokenKeys {env : Environment} {tokenKeys : List TokenKey}
    {publicKeys : GoMap PublicKey} {ids : GoMap Unit} {keyId : String} {publicKey : PublicKey}
    (h : (storeTokenKeys env publicKeys ids tokenKeys).1.lookup keyId = some publicKey) :
    publicKeys.lookup keyId = some publicKey ∨
      ∃ k ∈ tokenKeys, k.keyId = keyId ∧ publicKeyOf env k = .ok publicKey := by
  induction tokenKeys generalizing publicKeys ids with
  | nil => exact .inl h
  | cons k tokenKeys ih =>
      rw [storeTokenKeys] at h
      cases hkey : publicKeyOf env k with
      | error err =>
          rw [hkey] at h
          exact .inl h
      | ok key =>
          rw [hkey] at h
          rcases ih h with hold | ⟨k', hk', hserved⟩
          · rw [MapOrders.lookup_insert_eq] at hold
            split_ifs at hold with heq
            · cases hold
              exact .inr ⟨k, List.mem_cons_self, heq.symm, hkey⟩
            · exact .inl hold
          · exact .inr ⟨k', List.mem_cons_of_mem k hk', hserved⟩

theorem lookup_refreshTokenKeys {keyId : String} {publicKey : PublicKey}
    (h : (refreshTokenKeys d.uaa t.orders t.clock c).1.publicKeys.lookup keyId = some publicKey) :
    c.publicKeys.lookup keyId = some publicKey ∨ ¬ KeyRefresh.Throttled t.clock c ∧
      ∃ tokenKeys, fetchTokenKeys d.uaa c = .ok tokenKeys ∧
        ∃ k ∈ tokenKeys, k.keyId = keyId ∧ publicKeyOf d.uaa k = .ok publicKey := by
  rw [refreshTokenKeys] at h
  split_ifs at h with hthrottled
  · exact .inl h
  · dsimp only at h
    cases hfetch : fetchTokenKeys d.uaa c with
    | error err =>
        have hfetch' : fetchTokenKeys d.uaa { c with lastQueryTime := Int64.ofInt t.clock.query } =
            .error err := hfetch
        rw [hfetch'] at h
        exact .inl h
    | ok tokenKeys =>
        have hfetch' : fetchTokenKeys d.uaa { c with lastQueryTime := Int64.ofInt t.clock.query } =
            .ok tokenKeys := hfetch
        rw [hfetch'] at h
        have hstored : (storeTokenKeys d.uaa c.publicKeys
            (currentKeyIds t.orders.publicKeys c.publicKeys) tokenKeys).1.lookup keyId =
              some publicKey := by
          rcases hstore : storeTokenKeys d.uaa c.publicKeys
            (currentKeyIds t.orders.publicKeys c.publicKeys) tokenKeys with
            ⟨publicKeys, ids, err | err⟩
          · simp only [hstore, deleteKeyIds] at h
            rw [MapOrders.lookup_eraseKeys Sigma.fst] at h
            split_ifs at h
            exact h
          · simpa only [hstore] using h
        exact (lookup_storeTokenKeys hstored).imp_right fun hserved =>
          ⟨hthrottled, tokenKeys, rfl, hserved⟩

theorem refresh_request :
    tokenKeysRequest (refreshTokenKeys d.uaa t.orders t.clock c).1 = tokenKeysRequest c := by
  rw [refreshTokenKeys]
  split_ifs
  · rfl
  · dsimp only
    split
    · rfl
    · split <;> rfl

theorem keyCallback_client (headers : GoMap HeaderValue) :
    (keyCallback d t headers c).2 = c ∨
      (keyCallback d t headers c).2 = (refreshTokenKeys d.uaa t.orders t.clock c).1 ∧
      ∃ alg keyId, headers.lookup "alg" = some (.string alg) ∧ (alg = "RS256" ∨ alg = "HS256") ∧
        headers.lookup "kid" = some (.string keyId) ∧ c.publicKeys.lookup keyId = none := by
  rw [keyCallback]
  split
  · rename_i alg halg
    split_ifs with hsupported
    · exact .inl rfl
    · split
      · rename_i keyId hkid
        rw [loadOrFetchPublicKey]
        split
        · exact .inl rfl
        · rename_i hlookup
          refine .inr ⟨?_, alg, keyId, halg, by tauto, hkid, hlookup⟩
          dsimp only
          split <;> rfl
      · exact .inl rfl
  · exact .inl rfl

theorem read_client (token : List UInt8) :
    (read d t token c).client = c ∨ Misses d c token ∧
      (read d t token c).client = (refreshTokenKeys d.uaa t.orders t.clock c).1 := by
  have hdecode : (decode d.crypto (keyCallback d t) (trimBearer token) c).2 = c ∨
      Misses d c token ∧ (decode d.crypto (keyCallback d t) (trimBearer token) c).2 =
        (refreshTokenKeys d.uaa t.orders t.clock c).1 := by
    refine @decode_state d.crypto _ (keyCallback d t) (fun c' => c' = c ∨ Misses d c token ∧
      c' = (refreshTokenKeys d.uaa t.orders t.clock c).1) c (.inl rfl) _ ?_ ?_
    · intro header payload signature headers hparse hunmarshal
      rcases @keyCallback_client d t c headers with hold | ⟨hnew, alg, keyId, hmissing⟩
      · exact .inl hold
      · exact .inr ⟨⟨header, payload, signature, headers, alg, keyId, hparse, hunmarshal, hmissing⟩,
          hnew⟩
    · intro headers alg halg hjwa
      rcases @keyCallback_client d t c headers with hold | ⟨-, alg', -, halg', hsupported, -⟩
      · exact .inl hold
      · -- a key is never asked for under an algorithm for the management of keys
        obtain rfl : alg = alg' := by
          rw [halg] at halg'
          cases halg'
          rfl
        rcases hsupported with rfl | rfl <;> exact absurd hjwa (by decide)
  rw [read]
  split_ifs
  · exact .inl rfl
  · split <;> rename_i heq <;> rw [heq] at hdecode <;> exact hdecode

theorem step_request (event : Event) : tokenKeysRequest (step c event) = tokenKeysRequest c := by
  cases event with
  | refresh d t => exact refresh_request
  | read d t token =>
      rw [step]
      rcases read_client token with h | ⟨-, h⟩
      · rw [h]
      · rw [h, refresh_request]

theorem lookup_step {event : Event} {keyId : String} {publicKey : PublicKey}
    (h : (step c event).publicKeys.lookup keyId = some publicKey) :
    c.publicKeys.lookup keyId = some publicKey ∨ Serves c event keyId publicKey := by
  cases event with
  | refresh d t =>
      exact (lookup_refreshTokenKeys h).imp_right fun hserved => ⟨trivial, hserved.1, hserved.2⟩
  | read d t token =>
      rw [step] at h
      rcases read_client token with hclient | ⟨hmisses, hclient⟩
      · rw [hclient] at h
        exact .inl h
      · rw [hclient] at h
        exact (lookup_refreshTokenKeys h).imp_right fun hserved => ⟨hmisses, hserved.1, hserved.2⟩

def ServedIn (c : UAAClient) (events : List Event) (keyId : String) (publicKey : PublicKey) :
    Prop :=
  ∃ before event after, events = before ++ event :: after ∧
    tokenKeysRequest (before.foldl step c) = tokenKeysRequest c ∧
    Serves (before.foldl step c) event keyId publicKey

theorem ServedIn.append {events : List Event} {keyId : String} {publicKey : PublicKey}
    (h : ServedIn c events keyId publicKey) (more : List Event) :
    ServedIn c (events ++ more) keyId publicKey := by
  obtain ⟨before, event, after, rfl, hserved⟩ := h
  exact ⟨before, event, after ++ more, by rw [List.append_assoc, List.cons_append], hserved⟩

theorem run_request (events : List Event) :
    tokenKeysRequest (events.foldl step c) = tokenKeysRequest c := by
  induction events generalizing c with
  | nil => rfl
  | cons event events ih => exact ih.trans (step_request event)

theorem servedIn_concat {events : List Event} {event : Event} {keyId : String}
    {publicKey : PublicKey} (h : Serves (events.foldl step c) event keyId publicKey) :
    ServedIn c (events ++ [event]) keyId publicKey :=
  ⟨events, event, [], rfl, run_request events, h⟩

theorem run_served (hempty : c.publicKeys = ∅) (events : List Event) {keyId : String}
    {publicKey : PublicKey}
    (h : (events.foldl step c).publicKeys.lookup keyId = some publicKey) :
    ServedIn c events keyId publicKey := by
  induction events using List.reverseRecOn with
  | nil =>
      rw [List.foldl_nil, hempty, Finmap.lookup_empty] at h
      cases h
  | append_singleton events event ih =>
      rw [List.foldl_append, List.foldl_cons, List.foldl_nil] at h
      rcases lookup_step h with hold | hserved
      · exact (ih hold).append [event]
      · exact servedIn_concat hserved

theorem lookup_of_decodes {token header payload signature : List UInt8} {x : Decoding}
    {c' : UAAClient} (hparse : parse (trimBearer token) = .ok [header, payload, signature])
    (hx : Decodes d t c c' header payload signature x) :
    c.publicKeys.lookup x.keyId = some x.publicKey ∨
      Serves c (.read d t token) x.keyId x.publicKey := by
  have hload := hx.hasKey
  rw [loadOrFetchPublicKey] at hload
  cases hlookup : c.publicKeys.lookup x.keyId with
  | some key =>
      rw [hlookup] at hload
      cases hload
      exact .inl rfl
  | none =>
      rw [hlookup] at hload
      dsimp only at hload
      have hmisses : Misses d c token := ⟨header, payload, signature, x.headers, x.alg, x.keyId,
        hparse, hx.unmarshals, hx.hasAlg, alg_of_verified hx.verified, hx.hasKid, hlookup⟩
      cases hfetched : (refreshTokenKeys d.uaa t.orders t.clock c).1.publicKeys.lookup x.keyId with
      | none =>
          rw [hfetched] at hload
          cases hload
      | some key =>
          rw [hfetched] at hload
          cases hload
          have hserved := (lookup_refreshTokenKeys hfetched).resolve_left (by simp [hlookup])
          exact .inr ⟨hmisses, hserved.1, hserved.2⟩

/-- In every run that begins with an empty cache, a token is accepted only with
a key that UAA has served under the name in its header, to the request of this
call or of an earlier one. -/
theorem accepted_key_served (c : UAAClient) (hempty : c.publicKeys = ∅) (events : List Event)
    (d : Deps) (t : Moment) (token : List UInt8) (context : Oauth2ClientContext)
    (haccepted : (read d t token (events.foldl step c)).outcome = .accepted context) :
    ∃ header payload signature x c', parse (trimBearer token) = .ok [header, payload, signature] ∧
      Decodes d t (events.foldl step c) c' header payload signature x ∧
      ServedIn c (events ++ [.read d t token]) x.keyId x.publicKey := by
  obtain ⟨_, payload, c', hdecode, _⟩ := read_outcome.mp haccepted
  obtain ⟨header, signature, x, hparse, hx⟩ := decode_ok.mp hdecode
  refine ⟨header, payload, signature, x, c', hparse, hx, ?_⟩
  rcases lookup_of_decodes hparse hx with hold | hserved
  · exact (run_served hempty events hold).append _
  · exact servedIn_concat hserved

def emptyClient : UAAClient := ⟨"https://uaa/token_keys", ∅, 30000000000, "", "", 0⟩

def signedToken : List UInt8 := serialize [sampleHeader, userPayload, userMac]

noncomputable def refreshed : UAAClient :=
  [Event.refresh sampleDeps sampleMoment].foldl step emptyClient

theorem lookup_refreshed :
    refreshed.publicKeys.lookup "key-1" = some (.secret "secret".toUTF8.toList) := by
  have hfetch : fetchTokenKeys sampleDeps.uaa emptyClient = .ok [⟨"key-1", "secret", "HS256"⟩] :=
    KeyRefresh.fetch_serving _ _ _
  have hclock : ¬ KeyRefresh.Throttled sampleMoment.clock emptyClient := by
    rw [KeyRefresh.Throttled]
    decide
  have hvalid : ∀ k ∈ [(⟨"key-1", "secret", "HS256"⟩ : TokenKey)], Valid sampleDeps.uaa k :=
    List.forall_mem_singleton.mpr (KeyRefresh.valid_of_secret (by decide) rfl)
  change (refreshTokenKeys sampleDeps.uaa sampleMoment.orders sampleMoment.clock
    emptyClient).1.publicKeys.lookup _ = _
  rw [KeyRefresh.refresh_of_valid hclock hfetch hvalid]
  rfl

theorem signedToken_read : (read sampleDeps sampleMoment signedToken refreshed).outcome =
    .accepted ⟨false, signedToken, unixTime 1700003600⟩ := by
  have hparse : parse signedToken = .ok [sampleHeader, userPayload, userMac] :=
    parse_serialize (List.cons_ne_nil _ _)
  have htrim : trimBearer signedToken = signedToken :=
    trimBearer_of_no_space (serialize_no_space _ _ _)
  have hload : loadOrFetchPublicKey sampleDeps sampleMoment "key-1" refreshed =
      (.ok (.secret "secret".toUTF8.toList), refreshed) := by
    rw [loadOrFetchPublicKey, lookup_refreshed]
  have hmac : userMac = sampleMac "secret".toUTF8.toList (serialize [sampleHeader, userPayload]) :=
    (if_pos ⟨rfl, rfl⟩).symm
  have hclaims : sampleClaims userPayload = .ok ⟨["openid"], 1700003600⟩ := if_pos rfl
  have hexp : sampleMoment.now ≤ unixTime 1700003600 :=
    show (1700000001000000000 : Int) ≤ unixTime 1700003600 by decide
  have hdecodes : Decodes sampleDeps sampleMoment refreshed refreshed sampleHeader userPayload
      userMac ⟨sampleHeaders, "HS256", "key-1", .secret "secret".toUTF8.toList⟩ :=
    ⟨sampleUnmarshal_eq, rfl, rfl, hload, .hmac _ rfl hmac⟩
  refine read_outcome.mpr ⟨fun hnil => ?_, userPayload, refreshed,
    decode_ok.mpr ⟨sampleHeader, userMac, _, htrim ▸ hparse, hdecodes⟩,
    readPayload_accepted.mpr ⟨⟨["openid"], 1700003600⟩, hclaims, hexp, rfl⟩⟩
  rw [hnil] at hparse
  cases hparse

theorem accepted_key_served_secret : ∃ keyId publicKey,
    ServedIn emptyClient
      [.refresh sampleDeps sampleMoment, .read sampleDeps sampleMoment signedToken] keyId
      publicKey := by
  obtain ⟨_, _, _, x, _, _, _, hserved⟩ := accepted_key_served emptyClient rfl
    [.refresh sampleDeps sampleMoment] sampleDeps sampleMoment signedToken _ signedToken_read
  exact ⟨x.keyId, x.publicKey, hserved⟩

end served

end LogCache.UaaRead
