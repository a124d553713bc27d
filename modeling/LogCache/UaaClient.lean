import LogCache.MapOrders

namespace LogCache.UaaClient

open Envelopes MapOrders

section client

structure TokenKey where
  keyId : String
  value : String
  algorithm : String

structure RsaPublicKey where
  n : Int
  e : Int
deriving DecidableEq

inductive PKIXPublicKey
  | rsa (key : RsaPublicKey)
  | other

/-- A key as the cache holds it: the bytes of a secret or an RSA key. -/
inductive PublicKey
  | secret (bytes : List UInt8)
  | rsa (key : RsaPublicKey)
deriving DecidableEq

structure Request where
  method : String
  url : String
  contentType : String
  basicAuth : Option (String × String)

structure Response where
  statusCode : Int
  status : String
  body : List UInt8

/-- The network and the standard library: `HTTPClient.Do`, the decoder for
JSON, `pem.Decode`, `x509.ParsePKIXPublicKey` and the text of a duration. -/
structure Environment where
  httpDo : Request → Except String Response
  decodeTokenKeys : List UInt8 → Except String (List TokenKey)
  pemDecode : List UInt8 → Option (List UInt8)
  parsePKIXPublicKey : List UInt8 → Except String PKIXPublicKey
  durationString : Int → String

/-- What the calls of `time.Now` return, in nanoseconds: for the check, for the
text of the error and for the time of the query. -/
structure Clock where
  check : Int
  remaining : Int
  query : Int

structure Orders where
  publicKeys : MapOrder PublicKey
  currentKeyIds : MapOrder Unit

structure UAAClient where
  uaa : String
  publicKeys : GoMap PublicKey
  minimumRefreshInterval : Int64
  username : String
  password : String
  lastQueryTime : Int64

variable (env : Environment)

def tokenKeysRequest (c : UAAClient) : Request where
  method := "GET"
  url := c.uaa
  contentType := "application/json"
  basicAuth := if c.username = "" then none else some (c.username, c.password)

def unmarshalTokenKeys (body : List UInt8) : Except String (List TokenKey) :=
  (env.decodeTokenKeys body).mapError fun err =>
    "unable to decode json token keys from UAA: " ++ err

def fetchTokenKeys (c : UAAClient) : Except String (List TokenKey) :=
  match env.httpDo (tokenKeysRequest c) with
  | .error err => .error ("failed to get token keys from UAA: " ++ err)
  | .ok resp =>
      if resp.statusCode ≠ 200
        then .error ("got an invalid status code talking to UAA " ++ resp.status)
      else unmarshalTokenKeys env resp.body

/-- The key that one turn of the loop stores. In the last case the error that
is printed is nil. -/
def publicKeyOf (k : TokenKey) : Except String PublicKey :=
  if k.value = "" then .error "received an empty token key from UAA"
  else if k.algorithm = "HS256" then .ok (.secret k.value.toUTF8.toList)
  else
    match env.pemDecode k.value.toUTF8.toList with
    | none => .error "failed to parse PEM block containing the public key"
    | some block =>
        match env.parsePKIXPublicKey block with
        | .error err => .error ("error parsing public key: " ++ err)
        | .ok .other => .error "did not get a valid RSA key from UAA: %!s(<nil>)"
        | .ok (.rsa key) => .ok (.rsa key)

/-- The loop over the keys of the response, with the error that ends it. -/
def storeTokenKeys (publicKeys : GoMap PublicKey) (ids : GoMap Unit) :
    List TokenKey → GoMap PublicKey × GoMap Unit × Option String
  | [] => (publicKeys, ids, none)
  | k :: tokenKeys =>
      match publicKeyOf env k with
      | .error err => (publicKeys, ids, some err)
      | .ok key => storeTokenKeys (publicKeys.insert k.keyId key) (ids.erase k.keyId) tokenKeys

def currentKeyIds (order : MapOrder PublicKey) (publicKeys : GoMap PublicKey) : GoMap Unit :=
  (order.visit publicKeys).foldl (fun ids p => ids.insert p.1 ()) ∅

def deleteKeyIds (order : MapOrder Unit) (publicKeys : GoMap PublicKey) (ids : GoMap Unit) :
    GoMap PublicKey :=
  (order.visit ids).foldl (fun publicKeys p => publicKeys.erase p.1) publicKeys

def roundMillisecond (d : Int) : Int :=
  d.sign * ((2 * d.natAbs + 1000000) / 2000000 * 1000000 : Nat)

def nextAllowedRefreshTime (c : UAAClient) : Int :=
  c.lastQueryTime.toInt + c.minimumRefreshInterval.toInt

/-- `RefreshTokenKeys` with no other refresh at the same time: the client after
the call and the error. -/
def refreshTokenKeys (orders : Orders) (clock : Clock) (c : UAAClient) :
    UAAClient × Option String :=
  if clock.check < nextAllowedRefreshTime c then
    (c, some ("UAA TokenKey refresh throttled to every " ++
      env.durationString c.minimumRefreshInterval.toInt ++
      ", try again in " ++ env.durationString
        (roundMillisecond (nextAllowedRefreshTime c - clock.remaining))))
  else
    let c := { c with lastQueryTime := Int64.ofInt clock.query }
    match fetchTokenKeys env c with
    | .error err => (c, some err)
    | .ok tokenKeys =>
        match storeTokenKeys env c.publicKeys
          (currentKeyIds orders.publicKeys c.publicKeys) tokenKeys with
        | (publicKeys, _, some err) => ({ c with publicKeys := publicKeys }, some err)
        | (publicKeys, ids, none) =>
            ({ c with publicKeys := deleteKeyIds orders.currentKeyIds publicKeys ids }, none)

end client

section served

variable {env : Environment}

def Valid (env : Environment) (k : TokenKey) : Prop := ∃ key, publicKeyOf env k = .ok key

def install (env : Environment) (publicKeys : GoMap PublicKey) (k : TokenKey) : GoMap PublicKey :=
  match publicKeyOf env k with
  | .ok key => publicKeys.insert k.keyId key
  | .error _ => publicKeys

/-- The map of a response, in which later entries override earlier ones. -/
def servedKeys (env : Environment) (tokenKeys : List TokenKey) : GoMap PublicKey :=
  tokenKeys.foldl (install env) ∅

theorem lookup_install (publicKeys : GoMap PublicKey) (k : TokenKey) (keyId : String) :
    (install env publicKeys k).lookup keyId =
      (if k.keyId = keyId then (publicKeyOf env k).toOption else none).or
        (publicKeys.lookup keyId) := by
  rw [install]
  cases publicKeyOf env k with
  | error err =>
      split_ifs <;> rfl
  | ok key =>
      dsimp only
      rw [lookup_insert_eq]
      by_cases h : k.keyId = keyId
      · rw [if_pos h.symm, if_pos h]
        rfl
      · rw [if_neg (Ne.symm h), if_neg h]
        rfl

theorem lookup_foldl_install (tokenKeys : List TokenKey) (publicKeys : GoMap PublicKey)
    (keyId : String) :
    (tokenKeys.foldl (install env) publicKeys).lookup keyId =
      ((servedKeys env tokenKeys).lookup keyId).or (publicKeys.lookup keyId) := by
  induction tokenKeys using List.reverseRecOn with
  | nil => rfl
  | append_singleton tokenKeys k ih =>
      rw [servedKeys, List.foldl_append, List.foldl_append]
      change (install env _ k).lookup keyId =
        ((install env (servedKeys env tokenKeys) k).lookup keyId).or _
      rw [lookup_install, lookup_install, ih, Option.or_assoc]

theorem lookup_servedKeys_of_not_mem {tokenKeys : List TokenKey} {keyId : String}
    (h : keyId ∉ tokenKeys.map TokenKey.keyId) :
    (servedKeys env tokenKeys).lookup keyId = none := by
  induction tokenKeys using List.reverseRecOn with
  | nil => rfl
  | append_singleton tokenKeys k ih =>
      rw [List.map_append, List.mem_append, not_or] at h
      have hk : k.keyId ≠ keyId := fun heq => h.2 (List.mem_singleton.mpr heq.symm)
      rw [servedKeys, List.foldl_append]
      change (install env (servedKeys env tokenKeys) k).lookup keyId = none
      rw [lookup_install, if_neg hk, ih h.1]
      rfl

theorem lookup_servedKeys_of_mem {tokenKeys : List TokenKey} (hvalid : ∀ k ∈ tokenKeys, Valid env k)
    {keyId : String} (h : keyId ∈ tokenKeys.map TokenKey.keyId) :
    ∃ key, (servedKeys env tokenKeys).lookup keyId = some key := by
  induction tokenKeys using List.reverseRecOn with
  | nil => cases h
  | append_singleton tokenKeys k ih =>
      obtain ⟨hinit, hlast⟩ := List.forall_mem_append.mp hvalid
      obtain ⟨key, hkey⟩ := hlast k (List.mem_singleton_self k)
      rw [servedKeys, List.foldl_append]
      change ∃ key, (install env (servedKeys env tokenKeys) k).lookup keyId = some key
      rw [lookup_install, hkey]
      by_cases hk : k.keyId = keyId
      · exact ⟨key, by rw [if_pos hk]; rfl⟩
      · rw [if_neg hk]
        rw [List.map_append, List.mem_append] at h
        exact ih hinit (h.resolve_right fun hmem => hk (List.mem_singleton.mp hmem).symm)

end served

end LogCache.UaaClient
