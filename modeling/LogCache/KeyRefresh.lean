import LogCache.UaaClient

namespace LogCache.KeyRefresh

open Envelopes MapOrders UaaClient

section loops

variable {env : Environment}

theorem storeTokenKeys_append {pre : List TokenKey} (hpre : ∀ k ∈ pre, Valid env k)
    (rest : List TokenKey) (publicKeys : GoMap PublicKey) (ids : GoMap Unit) :
    storeTokenKeys env publicKeys ids (pre ++ rest) =
      storeTokenKeys env (pre.foldl (install env) publicKeys)
        (pre.foldl (fun ids k => ids.erase k.keyId) ids) rest := by
  induction pre generalizing publicKeys ids with
  | nil => rfl
  | cons k pre ih =>
      obtain ⟨⟨key, hkey⟩, hrest⟩ := List.forall_mem_cons.mp hpre
      have hinstall : install env publicKeys k = publicKeys.insert k.keyId key := by
        rw [install, hkey]
      rw [List.cons_append, storeTokenKeys, hkey, List.foldl_cons, List.foldl_cons, hinstall]
      exact ih hrest _ _

theorem exists_first_invalid (tokenKeys : List TokenKey) :
    (∀ k ∈ tokenKeys, Valid env k) ∨
      ∃ pre k post err, tokenKeys = pre ++ k :: post ∧ (∀ k ∈ pre, Valid env k) ∧
        publicKeyOf env k = .error err := by
  induction tokenKeys with
  | nil => exact .inl fun k hk => absurd hk List.not_mem_nil
  | cons k tokenKeys ih =>
      cases hkey : publicKeyOf env k with
      | error err =>
          exact .inr ⟨[], k, tokenKeys, err, rfl, fun k hk => absurd hk List.not_mem_nil, hkey⟩
      | ok key =>
          rcases ih with hall | ⟨pre, k', post, err, rfl, hpre, herr⟩
          · exact .inl (List.forall_mem_cons.mpr ⟨⟨key, hkey⟩, hall⟩)
          · exact .inr ⟨k :: pre, k', post, err, rfl,
              List.forall_mem_cons.mpr ⟨⟨key, hkey⟩, hpre⟩, herr⟩

theorem isSome_lookup_currentKeyIds (order : MapOrder PublicKey) (publicKeys : GoMap PublicKey)
    (keyId : String) :
    ((currentKeyIds order publicKeys).lookup keyId).isSome = (publicKeys.lookup keyId).isSome := by
  rw [currentKeyIds, isSome_lookup_insertKeys, Finmap.lookup_empty, Option.isSome_none,
    Bool.or_false, Bool.eq_iff_iff, decide_eq_true_eq, mem_keys_visit]

/-- What the deletions leave are the served keys: each key of the cache is
either served again or deleted. -/
theorem deleteKeyIds_eq (orders : Orders) (publicKeys : GoMap PublicKey) {tokenKeys : List TokenKey}
    (hvalid : ∀ k ∈ tokenKeys, Valid env k) :
    deleteKeyIds orders.currentKeyIds (tokenKeys.foldl (install env) publicKeys)
        (tokenKeys.foldl (fun ids k => ids.erase k.keyId)
          (currentKeyIds orders.publicKeys publicKeys)) =
      servedKeys env tokenKeys := by
  apply Finmap.ext_lookup
  intro keyId
  have hids := isSome_lookup_currentKeyIds orders.publicKeys publicKeys keyId
  rw [deleteKeyIds, lookup_eraseKeys Sigma.fst, if_congr (mem_keys_visit _ _ keyId) rfl rfl,
    lookup_eraseKeys TokenKey.keyId, lookup_foldl_install]
  by_cases hmem : keyId ∈ tokenKeys.map TokenKey.keyId
  · obtain ⟨key, hkey⟩ := lookup_servedKeys_of_mem hvalid hmem
    rw [if_pos hmem, hkey]
    rfl
  · rw [if_neg hmem, lookup_servedKeys_of_not_mem hmem, hids]
    cases publicKeys.lookup keyId <;> rfl

end loops

section refresh

variable {env : Environment} {orders : Orders} {clock : Clock} {c : UAAClient}
    {tokenKeys : List TokenKey}

def Throttled (clock : Clock) (c : UAAClient) : Prop := clock.check < nextAllowedRefreshTime c

theorem refresh_throttled (h : Throttled clock c) :
    ∃ err, refreshTokenKeys env orders clock c = (c, some err) := by
  rw [Throttled] at h
  rw [refreshTokenKeys, if_pos h]
  exact ⟨_, rfl⟩

theorem refresh_of_error (h : ¬ Throttled clock c) {err : String}
    (hfetch : fetchTokenKeys env c = .error err) :
    refreshTokenKeys env orders clock c = ({ c with lastQueryTime := Int64.ofInt clock.query },
      some err) := by
  have hfetch' : fetchTokenKeys env { c with lastQueryTime := Int64.ofInt clock.query } =
      .error err := hfetch
  rw [Throttled] at h
  rw [refreshTokenKeys, if_neg h]
  dsimp only
  rw [hfetch']

theorem refresh_of_valid (h : ¬ Throttled clock c) (hfetch : fetchTokenKeys env c = .ok tokenKeys)
    (hvalid : ∀ k ∈ tokenKeys, Valid env k) :
    refreshTokenKeys env orders clock c =
      ({ c with lastQueryTime := Int64.ofInt clock.query, publicKeys := servedKeys env tokenKeys },
        none) := by
  have hfetch' : fetchTokenKeys env { c with lastQueryTime := Int64.ofInt clock.query } =
      .ok tokenKeys := hfetch
  have hloop := storeTokenKeys_append hvalid [] c.publicKeys
      (currentKeyIds orders.publicKeys c.publicKeys)
  rw [List.append_nil, storeTokenKeys] at hloop
  rw [Throttled] at h
  rw [refreshTokenKeys, if_neg h]
  dsimp only
  rw [hfetch']
  dsimp only
  rw [hloop]
  dsimp only
  rw [deleteKeyIds_eq orders c.publicKeys hvalid]

theorem refresh_of_invalid (h : ¬ Throttled clock c) {pre post : List TokenKey} {k : TokenKey}
    {err : String} (hfetch : fetchTokenKeys env c = .ok (pre ++ k :: post))
    (hpre : ∀ k ∈ pre, Valid env k) (hk : publicKeyOf env k = .error err) :
    refreshTokenKeys env orders clock c =
      ({ c with lastQueryTime := Int64.ofInt clock.query,
                publicKeys := pre.foldl (install env) c.publicKeys },
        some err) := by
  have hfetch' : fetchTokenKeys env { c with lastQueryTime := Int64.ofInt clock.query } =
      .ok (pre ++ k :: post) := hfetch
  have hloop := storeTokenKeys_append hpre (k :: post) c.publicKeys
      (currentKeyIds orders.publicKeys c.publicKeys)
  rw [storeTokenKeys, hk] at hloop
  rw [Throttled] at h
  rw [refreshTokenKeys, if_neg h]
  dsimp only
  rw [hfetch']
  dsimp only
  rw [hloop]

theorem fetchTokenKeys_ok : fetchTokenKeys env c = .ok tokenKeys ↔
    ∃ resp, env.httpDo (tokenKeysRequest c) = .ok resp ∧ resp.statusCode = 200 ∧
      env.decodeTokenKeys resp.body = .ok tokenKeys := by
  rw [fetchTokenKeys]
  cases env.httpDo (tokenKeysRequest c) with
  | error err => simp
  | ok resp =>
      by_cases hstatus : resp.statusCode = 200
      · cases hkeys : env.decodeTokenKeys resp.body <;>
          simp [hstatus, unmarshalTokenKeys, hkeys, Except.mapError]
      · simp [hstatus]

/-- A refresh without an error has got a response of status 200 with a list of
valid keys, and leaves exactly these in the cache. Every such list is accepted. -/
theorem refresh_installs_served_keys (env : Environment) (orders : Orders) (clock : Clock)
    (c : UAAClient) :
    (∀ c', refreshTokenKeys env orders clock c = (c', none) →
      ¬ Throttled clock c ∧ ∃ resp tokenKeys, env.httpDo (tokenKeysRequest c) = .ok resp ∧
        resp.statusCode = 200 ∧ env.decodeTokenKeys resp.body = .ok tokenKeys ∧
        (∀ k ∈ tokenKeys, Valid env k) ∧ c'.publicKeys = servedKeys env tokenKeys) ∧
      ∀ resp tokenKeys, ¬ Throttled clock c → env.httpDo (tokenKeysRequest c) = .ok resp →
        resp.statusCode = 200 → env.decodeTokenKeys resp.body = .ok tokenKeys →
        (∀ k ∈ tokenKeys, Valid env k) → ∃ c',
          refreshTokenKeys env orders clock c = (c', none) := by
  refine ⟨fun c' hc' => ?_, fun resp tokenKeys h hresp hstatus hkeys hvalid =>
    ⟨_, refresh_of_valid h (fetchTokenKeys_ok.mpr ⟨resp, hresp, hstatus, hkeys⟩) hvalid⟩⟩
  by_cases h : Throttled clock c
  · obtain ⟨err, herr⟩ := @refresh_throttled env orders clock c h
    rw [herr] at hc'
    cases hc'
  · refine ⟨h, ?_⟩
    cases hfetch : fetchTokenKeys env c with
    | error err =>
        rw [refresh_of_error h hfetch] at hc'
        cases hc'
    | ok tokenKeys =>
        rcases @exists_first_invalid env tokenKeys with hvalid | ⟨pre, k, post, err, rfl, hpre, hk⟩
        · rw [refresh_of_valid h hfetch hvalid] at hc'
          cases hc'
          obtain ⟨resp, hresp, hstatus, hkeys⟩ := fetchTokenKeys_ok.mp hfetch
          exact ⟨resp, tokenKeys, hresp, hstatus, hkeys, hvalid, rfl⟩
        · rw [refresh_of_invalid h hfetch hpre hk] at hc'
          cases hc'

def serving (body : List UInt8) (tokenKeys : List TokenKey) : Environment where
  httpDo _ := .ok ⟨200, "200 OK", body⟩
  decodeTokenKeys text := if text = body then .ok tokenKeys else .error "EOF"
  pemDecode _ := none
  parsePKIXPublicKey _ := .error "x509: malformed tbs certificate"
  durationString _ := "30s"

theorem decode_serving (body : List UInt8) (tokenKeys : List TokenKey) :
    (serving body tokenKeys).decodeTokenKeys body = .ok tokenKeys := if_pos rfl

theorem fetch_serving (body : List UInt8) (tokenKeys : List TokenKey) (c : UAAClient) :
    fetchTokenKeys (serving body tokenKeys) c = .ok tokenKeys :=
  fetchTokenKeys_ok.mpr ⟨_, rfl, rfl, decode_serving body tokenKeys⟩

theorem valid_of_secret {k : TokenKey} (hvalue : k.value ≠ "") (halg : k.algorithm = "HS256") :
    Valid env k :=
  ⟨.secret k.value.toUTF8.toList, by rw [publicKeyOf, if_neg hvalue, if_pos halg]⟩

def rolledBody : List UInt8 :=
  bytesOf ("\x7b\"keys\":[\x7b\"kid\":\"key-1\",\"value\":\"one\",\"alg\":\"HS256\"\x7d," ++
    "\x7b\"kid\":\"key-3\",\"value\":\"three\",\"alg\":\"HS256\"\x7d," ++
    "\x7b\"kid\":\"key-1\",\"value\":\"last\",\"alg\":\"HS256\"\x7d]\x7d")

def rolledKeys : List TokenKey :=
  [⟨"key-1", "one", "HS256"⟩, ⟨"key-3", "three", "HS256"⟩, ⟨"key-1", "last", "HS256"⟩]

def twoCached : UAAClient :=
  ⟨"https://uaa/token_keys", ((∅ : GoMap PublicKey).insert "key-1" (.secret (bytesOf "old"))).insert
    "key-2" (.secret (bytesOf "two")), 30000000000, "", "", 0⟩

def later : Clock := ⟨1700000000000000000, 1700000000000000000, 1700000000000000000⟩

theorem refresh_installs_served_keys_rolled : ∃ orders c',
    refreshTokenKeys (serving rolledBody rolledKeys) orders later twoCached = (c', none) ∧
      c'.publicKeys = servedKeys (serving rolledBody rolledKeys) rolledKeys ∧
      c'.publicKeys.lookup "key-1" = some (.secret "last".toUTF8.toList) ∧
      c'.publicKeys.lookup "key-2" = none := by
  have hclock : ¬ Throttled later twoCached := by
    rw [Throttled]
    decide
  -- the bytes are not looked into
  generalize rolledBody = body
  have hvalid : ∀ k ∈ rolledKeys, Valid (serving body rolledKeys) k := by
    simp only [rolledKeys, List.forall_mem_cons]
    exact ⟨valid_of_secret (by decide) rfl, valid_of_secret (by decide) rfl,
      valid_of_secret (by decide) rfl, fun k hk => absurd hk List.not_mem_nil⟩
  obtain ⟨hinstalls, haccepts⟩ :=
    refresh_installs_served_keys (serving body rolledKeys) ⟨.any, .any⟩ later twoCached
  obtain ⟨c', hc'⟩ := haccepts ⟨200, "200 OK", body⟩ rolledKeys hclock rfl rfl
    (decode_serving body rolledKeys) hvalid
  obtain ⟨-, resp, tokenKeys, hresp, -, hkeys, -, hserved⟩ := hinstalls c' hc'
  obtain rfl : ⟨200, "200 OK", body⟩ = resp := Except.ok.inj hresp
  obtain rfl : rolledKeys = tokenKeys :=
    Except.ok.inj ((decode_serving body rolledKeys).symm.trans hkeys)
  refine ⟨⟨.any, .any⟩, c', hc', hserved, ?_, ?_⟩
  · rw [hserved]
    rfl
  · rw [hserved]
    rfl

/-- What is stored before a refresh fails was in the cache already. -/
def OnlyKnownKeys (env : Environment) (clock : Clock) (c : UAAClient) : Prop :=
  ∀ pre k post, ¬ Throttled clock c → fetchTokenKeys env c = .ok (pre ++ k :: post) →
    (∀ k ∈ pre, Valid env k) →
    ¬ Valid env k → ∀ keyId key, (servedKeys env pre).lookup keyId = some key →
      c.publicKeys.lookup keyId = some key

theorem foldl_install_eq_self_iff (pre : List TokenKey) (publicKeys : GoMap PublicKey) :
    pre.foldl (install env) publicKeys = publicKeys ↔
      ∀ keyId key, (servedKeys env pre).lookup keyId = some key →
        publicKeys.lookup keyId = some key := by
  constructor
  · intro h keyId key hkey
    rw [← h, lookup_foldl_install, hkey]
    rfl
  · intro h
    apply Finmap.ext_lookup
    intro keyId
    rw [lookup_foldl_install]
    cases hkey : (servedKeys env pre).lookup keyId with
    | none => rfl
    | some key => exact (h keyId key hkey).symm

/-- A failed refresh leaves the cache as it was, exactly if the entries before
the first invalid one are in the cache already. -/
theorem failed_refresh_keeps_keys_iff (env : Environment) (orders : Orders) (clock : Clock)
    (c : UAAClient) :
    (∀ c' err, refreshTokenKeys env orders clock c = (c', some err) →
      c'.publicKeys = c.publicKeys) ↔
      OnlyKnownKeys env clock c := by
  constructor
  · intro hkeep pre k post h hfetch hpre hk
    cases herr : publicKeyOf env k with
    | ok key => exact absurd ⟨key, herr⟩ hk
    | error err =>
        exact (foldl_install_eq_self_iff pre c.publicKeys).mp
          (hkeep _ err (refresh_of_invalid h hfetch hpre herr))
  · intro hknown c' err hc'
    by_cases h : Throttled clock c
    · obtain ⟨err', herr'⟩ := @refresh_throttled env orders clock c h
      rw [herr'] at hc'
      cases hc'
      rfl
    · cases hfetch : fetchTokenKeys env c with
      | error err' =>
          rw [refresh_of_error h hfetch] at hc'
          cases hc'
          rfl
      | ok tokenKeys =>
          rcases @exists_first_invalid env tokenKeys with hvalid | ⟨pre, k, post, err',
            rfl, hpre, hk⟩
          · rw [refresh_of_valid h hfetch hvalid] at hc'
            cases hc'
          · rw [refresh_of_invalid h hfetch hpre hk] at hc'
            cases hc'
            refine (foldl_install_eq_self_iff pre c.publicKeys).mpr
              (hknown pre k post h hfetch hpre ?_)
            rintro ⟨key, hkey⟩
            rw [hk] at hkey
            cases hkey

def emptySecond : Environment :=
  serving
    (bytesOf ("\x7b\"keys\":[\x7b\"kid\":\"new\",\"value\":\"secret\",\"alg\":\"HS256\"\x7d," ++
      "\x7b\"kid\":\"empty\",\"value\":\"\",\"alg\":\"HS256\"\x7d]\x7d"))
    [⟨"new", "secret", "HS256"⟩, ⟨"empty", "", "HS256"⟩]

def emptyCache : UAAClient := ⟨"https://uaa/token_keys", ∅, 30000000000, "", "", 0⟩

theorem failed_refresh_leaves_a_key :
    ∃ orders c', refreshTokenKeys emptySecond orders later emptyCache =
        (c', some "received an empty token key from UAA") ∧
      emptyCache.publicKeys.lookup "new" = none ∧ (c'.publicKeys.lookup "new").isSome = true := by
  have hfetch : fetchTokenKeys emptySecond emptyCache =
      .ok ([⟨"new", "secret", "HS256"⟩] ++ ⟨"empty", "", "HS256"⟩ :: []) := fetch_serving _ _ _
  have hclock : ¬ Throttled later emptyCache := by
    rw [Throttled]
    decide
  have hpre : ∀ k ∈ [(⟨"new", "secret", "HS256"⟩ : TokenKey)], Valid emptySecond k :=
    List.forall_mem_singleton.mpr (valid_of_secret (by decide) rfl)
  exact ⟨⟨.any, .any⟩, _, refresh_of_invalid hclock hfetch hpre rfl, rfl, rfl⟩

end refresh

end LogCache.KeyRefresh
