import LogCache.Base64
import LogCache.Runs
import LogCache.UaaClient

namespace LogCache.Jose

open Base64 Envelopes UaaClient

section compact

def dot : UInt8 := 46

def fromUrl (c : UInt8) : UInt8 := if c = 45 then 43 else if c = 95 then 47 else c

def toUrl (c : UInt8) : UInt8 := if c = 43 then 45 else if c = 47 then 95 else c

def base64urlDecode (data : List UInt8) : Except String (List UInt8) :=
  let data := data.map fromUrl
  let data :=
    if data.length % 4 = 2 then data ++ [padChar, padChar]
    else if data.length % 4 = 3 then data ++ [padChar]
    else data
  (decodeString data).mapError fun pos => "illegal base64 data at input byte " ++ toString pos

def base64urlEncode (data : List UInt8) : List UInt8 :=
  ((encodeToString data).map toUrl).filter (· ≠ padChar)

def parse (token : List UInt8) : Except String (List (List UInt8)) :=
  (token.splitOn dot).mapM base64urlDecode

def serialize (parts : List (List UInt8)) : List UInt8 :=
  [dot].intercalate (parts.map base64urlEncode)

theorem fromUrl_toUrl {c : UInt8} (h : IsSymbol c) :
    fromUrl (toUrl c) = c ∧ toUrl c ≠ padChar ∧ toUrl c ≠ dot := by
  obtain ⟨v, hv, rfl⟩ := h
  have hall : ∀ v < 64, fromUrl (toUrl (symbol v)) = symbol v ∧ toUrl (symbol v) ≠ padChar ∧
      toUrl (symbol v) ≠ dot := by decide
  exact hall v hv

theorem base64urlEncode_eq (data : List UInt8) :
    base64urlEncode data = (symbols data).map toUrl := by
  have hsymbols : ((symbols data).map toUrl).filter (· ≠ padChar) = (symbols data).map toUrl := by
    refine List.filter_eq_self.mpr fun c hc => ?_
    obtain ⟨c', hc', rfl⟩ := List.mem_map.mp hc
    simpa using (fromUrl_toUrl (symbols_isSymbol data c' hc')).2.1
  have hpads : ((pads (symbols data).length).map toUrl).filter (· ≠ padChar) = [] := by
    refine List.filter_eq_nil_iff.mpr fun c hc => ?_
    obtain ⟨c', hc', rfl⟩ := List.mem_map.mp hc
    rw [List.eq_of_mem_replicate hc']
    decide
  rw [base64urlEncode, encodeToString, List.map_append, List.filter_append, hsymbols, hpads,
    List.append_nil]

theorem length_symbols_mod (data : List UInt8) : (symbols data).length % 4 ≠ 1 := by
  induction data using symbols.induct with
  | case1 x y z rest ih =>
      simp only [symbols, List.length_cons]
      omega
  | case2 x y => simp [symbols]
  | case3 x => simp [symbols]
  | case4 => simp [symbols]

theorem base64urlDecode_encode (data : List UInt8) :
    base64urlDecode (base64urlEncode data) = .ok data := by
  have hback : ((symbols data).map toUrl).map fromUrl = symbols data := by
    rw [List.map_map]
    refine (List.map_congr_left fun c hc => ?_).trans (List.map_id _)
    exact (fromUrl_toUrl (symbols_isSymbol data c hc)).1
  have hpadded : (if (symbols data).length % 4 = 2 then symbols data ++ [padChar, padChar]
      else if (symbols data).length % 4 = 3 then symbols data ++ [padChar] else symbols data) =
        encodeToString data := by
    have hmod := length_symbols_mod data
    rw [encodeToString, pads]
    split_ifs with h2 h3
    · rw [h2]
      rfl
    · rw [h3]
      rfl
    · rw [show (symbols data).length % 4 = 0 by omega]
      simp
  simp only [base64urlDecode, base64urlEncode_eq, hback, hpadded, decodeString_encodeToString]
  rfl

theorem dot_not_mem_encode (data : List UInt8) : dot ∉ base64urlEncode data := by
  rw [base64urlEncode_eq]
  intro hmem
  obtain ⟨c, hc, hdot⟩ := List.mem_map.mp hmem
  exact (fromUrl_toUrl (symbols_isSymbol data c hc)).2.2 hdot

theorem parse_serialize {parts : List (List UInt8)} (h : parts ≠ []) :
    parse (serialize parts) = .ok parts := by
  have hsplit : ([dot].intercalate (parts.map base64urlEncode)).splitOn dot =
      parts.map base64urlEncode := by
    refine List.splitOn_intercalate dot (fun l hl => ?_) (by simpa using h)
    obtain ⟨data, _, rfl⟩ := List.mem_map.mp hl
    exact dot_not_mem_encode data
  rw [parse, serialize, hsplit, List.mapM_map]
  have hall := @Runs.mapM_ok String _ _ (base64urlDecode ∘ base64urlEncode) id parts fun a _ =>
      base64urlDecode_encode a
  rwa [List.map_id] at hall

end compact

section decode

inductive HeaderValue
  | string (s : String)
  | other

/-- The decoder for JSON and the algorithms. The last two are those that the
caller's key callback turns down. -/
structure Crypto where
  unmarshal : List UInt8 → Except String (GoMap HeaderValue)
  verifyPKCS1v15 : RsaPublicKey → List UInt8 → List UInt8 → Except String Unit
  hmacSha256 : List UInt8 → List UInt8 → List UInt8
  verifyOther : String → PublicKey → List UInt8 → List UInt8 → Except String Unit
  decryptWith : GoMap HeaderValue → PublicKey → List (List UInt8) → Except String (List UInt8)

inductive Failure
  | algorithm (alg : String)
  | unknownTokenKey (kid : String)
  | other (text : String)
  | panic

def jwsHashers : List String :=
  ["none", "HS256", "HS384", "HS512", "RS256", "RS384", "RS512", "PS256", "PS384", "PS512", "ES256",
    "ES384", "ES512"]

def jwaAlgorithms : List String :=
  ["dir", "RSA1_5", "RSA-OAEP", "RSA-OAEP-256", "RSA-OAEP-384", "RSA-OAEP-512", "A128KW",
    "A192KW", "A256KW", "A128GCMKW", "A192GCMKW", "A256GCMKW", "PBES2-HS256+A128KW",
    "PBES2-HS384+A192KW", "PBES2-HS512+A256KW", "ECDH-ES", "ECDH-ES+A128KW", "ECDH-ES+A192KW",
    "ECDH-ES+A256KW"]

def jweEncryptors : List String :=
  ["A128CBC-HS256", "A192CBC-HS384", "A256CBC-HS512", "A128GCM", "A192GCM", "A256GCM"]

variable (crypto : Crypto)

def hmacSign (secured : List UInt8) : PublicKey → Except String (List UInt8)
  | .secret bytes => .ok (crypto.hmacSha256 bytes secured)
  | .rsa _ => .error "HmacUsingSha.Sign(): expects key to be '[]byte' array"

/-- `HmacUsingSha.Verify` does not look at the error of `Sign`. Its signature is
then nil. -/
def hmacVerify (secured signature : List UInt8) (key : PublicKey) : Except String Unit :=
  let actualSig := (hmacSign crypto secured key).toOption.getD []
  if signature = actualSig then .ok () else .error "HmacUsingSha.Verify(): Signature is invalid"

def rsaVerify (secured signature : List UInt8) : PublicKey → Except String Unit
  | .rsa key => crypto.verifyPKCS1v15 key secured signature
  | .secret _ => .error "RsaUsingSha.Verify(): expects key to be '*rsa.PublicKey'"

def verifier (alg : String) (secured signature : List UInt8) (key : PublicKey) :
    Except String Unit :=
  if alg = "RS256" then rsaVerify crypto secured signature key
  else if alg = "HS256" then hmacVerify crypto secured signature key
  else crypto.verifyOther alg key secured signature

variable {σ : Type} (keyCallback : GoMap HeaderValue → σ → Except Failure PublicKey × σ)

def verify (header payload signature : List UInt8) (s : σ) : Except Failure (List UInt8) × σ :=
  match crypto.unmarshal header with
  | .error err => (.error (.other err), s)
  | .ok headers =>
      match headers.lookup "alg" with
      | some (.string alg) =>
          if alg ∈ jwsHashers then
            match keyCallback headers s with
            | (.error err, s) => (.error err, s)
            | (.ok key, s) =>
                match verifier crypto alg (serialize [header, payload]) signature key with
                | .ok _ => (.ok payload, s)
                | .error err => (.error (.other err), s)
          else (.error (.other ("jwt.Decode(): Unknown algorithm: '" ++ alg ++ "'")), s)
      | _ =>
          (.error (.other "jwt.Decode(): required 'alg' header is missing or of invalid type"), s)

def decrypt (header : List UInt8) (rest : List (List UInt8)) (s : σ) :
    Except Failure (List UInt8) × σ :=
  match crypto.unmarshal header with
  | .error err => (.error (.other err), s)
  | .ok headers =>
      match headers.lookup "alg", headers.lookup "enc" with
      | some (.string alg), some (.string enc) =>
          if alg ∈ jwaAlgorithms then
            if enc ∈ jweEncryptors then
              match keyCallback headers s with
              | (.error err, s) => (.error err, s)
              | (.ok key, s) =>
                  ((crypto.decryptWith headers key (header :: rest)).mapError .other, s)
            else (.error (.other ("jwt.decrypt(): Unknown encryption algorithm '" ++ enc ++ "'")),
              s)
          else (.error (.other ("jwt.decrypt(): Unknown key management algorithm '" ++ alg ++ "'")),
            s)
      | some (.string _), _ =>
          (.error (.other "jwt.Decode(): required 'enc' header is missing or of invalid type"), s)
      | _, _ =>
          (.error (.other "jwt.Decode(): required 'alg' header is missing or of invalid type"), s)

/-- `Decode`, with a key callback that reads and changes a state. -/
def decode (token : List UInt8) (s : σ) : Except Failure (List UInt8) × σ :=
  match parse token with
  | .error err => (.error (.other err), s)
  | .ok [header, payload, signature] => verify crypto keyCallback header payload signature s
  | .ok [header, cek, iv, cipherText, authTag] =>
      decrypt crypto keyCallback header [cek, iv, cipherText, authTag] s
  | .ok parts =>
      (.error (.other ("jwt.DecodeBytes() expects token of 3 or 5 parts, but was given: " ++
        toString parts.length ++
        " parts")), s)

end decode

section results

variable {crypto : Crypto} {σ : Type}
    {keyCallback : GoMap HeaderValue → σ → Except Failure PublicKey × σ}

/-- A key that the callback returned and a signature that it verifies. With a
key of the wrong kind the empty signature is one. -/
inductive Verified (crypto : Crypto) (alg : String) (secured signature : List UInt8) :
    PublicKey → Prop
  | rsa (key : RsaPublicKey) (halg : alg = "RS256")
    (h : crypto.verifyPKCS1v15 key secured signature = .ok ()) :
      Verified crypto alg secured signature (.rsa key)
  | hmac (bytes : List UInt8) (halg : alg = "HS256")
    (h : signature = crypto.hmacSha256 bytes secured) :
      Verified crypto alg secured signature (.secret bytes)
  | unsigned (key : RsaPublicKey) (halg : alg = "HS256") (h : signature = []) :
      Verified crypto alg secured signature (.rsa key)

theorem verifier_iff {alg : String} (halg : alg = "RS256" ∨ alg = "HS256")
    (secured signature : List UInt8) (key : PublicKey) :
    verifier crypto alg secured signature key = .ok () ↔
      Verified crypto alg secured signature key := by
  have hne : ("HS256" : String) ≠ "RS256" := by decide
  rcases halg with rfl | rfl
  · rw [verifier, if_pos rfl]
    cases key with
    | secret bytes =>
        refine iff_of_false (fun h => by cases h) fun h => ?_
        cases h with
        | hmac _ halg => exact absurd halg.symm hne
    | rsa key =>
        refine ⟨.rsa key rfl, fun h => ?_⟩
        cases h with
        | rsa _ _ h => exact h
        | unsigned _ halg => exact absurd halg.symm hne
  · rw [verifier, if_neg hne, if_pos rfl, hmacVerify]
    cases key with
    | secret bytes =>
        change (if signature = crypto.hmacSha256 bytes secured then _ else _) = _ ↔ _
        split_ifs with hsignature
        · exact iff_of_true rfl (.hmac bytes rfl hsignature)
        · refine iff_of_false (fun h => by cases h) fun h => ?_
          cases h with
          | hmac _ _ h => exact hsignature h
    | rsa key =>
        change (if signature = [] then _ else _) = _ ↔ _
        split_ifs with hsignature
        · exact iff_of_true rfl (.unsigned key rfl hsignature)
        · refine iff_of_false (fun h => by cases h) fun h => ?_
          cases h with
          | rsa _ halg => exact absurd halg hne
          | unsigned _ _ h => exact hsignature h

theorem verify_state {P : σ → Prop} {s : σ} (hs : P s) {header : List UInt8}
    (hcall : ∀ headers, crypto.unmarshal header = .ok headers → P (keyCallback headers s).2)
    (payload signature : List UInt8) :
    P (verify crypto keyCallback header payload signature s).2 := by
  rw [verify]
  split
  · exact hs
  · rename_i headers hunmarshal
    have hheaders := hcall headers hunmarshal
    split
    · split_ifs
      · rcases hcalled : keyCallback headers s with ⟨err | key, s'⟩ <;> rw [hcalled] at hheaders
        · exact hheaders
        · dsimp only
          split <;> exact hheaders
      · exact hs
    · exact hs

theorem decrypt_state {P : σ → Prop} {s : σ} (hs : P s)
    (hcall : ∀ headers alg, headers.lookup "alg" = some (.string alg) → alg ∈ jwaAlgorithms →
      P (keyCallback headers s).2)
    (header : List UInt8) (rest : List (List UInt8)) :
    P (decrypt crypto keyCallback header rest s).2 := by
  rw [decrypt]
  split
  · exact hs
  · rename_i headers _
    split
    · rename_i alg enc halg henc
      split_ifs with hjwa
      · have hheaders := hcall headers alg halg hjwa
        rcases hcalled : keyCallback headers s with ⟨err | key, s'⟩ <;> rw [hcalled] at hheaders <;>
          exact hheaders
      · exact hs
      · exact hs
    · exact hs
    · exact hs

/-- The decoder leaves the state to the callback, which it calls with the header
of a signed token or with one that names an algorithm for the management of keys. -/
theorem decode_state {P : σ → Prop} {s : σ} (hs : P s) {token : List UInt8}
    (hverify : ∀ header payload signature headers, parse token = .ok [header, payload, signature] →
      crypto.unmarshal header = .ok headers → P (keyCallback headers s).2)
    (hdecrypt : ∀ headers alg, headers.lookup "alg" = some (.string alg) → alg ∈ jwaAlgorithms →
      P (keyCallback headers s).2) : P (decode crypto keyCallback token s).2 := by
  rw [decode]
  split
  · exact hs
  · rename_i header payload signature hparse
    exact verify_state hs (fun headers => hverify header payload signature headers hparse) _ _
  · exact decrypt_state hs hdecrypt _ _
  · exact hs

end results

end LogCache.Jose
