import LogCache.NetUrl
import LogCache.QueryTimes

namespace LogCache.AccessLog

open NetUrl QueryTimes Runs

section lines

def newline : UInt8 := byte '\n'

def lines : Bytes → List Bytes
  | [] => []
  | c :: s =>
      if c = newline then [] :: lines s
      else match lines s with
        | [] => [[c]]
        | line :: rest => (c :: line) :: rest

variable {line s : Bytes}

theorem not_mem_of_mem_lines (h : line ∈ lines s) : newline ∉ line := by
  induction s generalizing line with
  | nil => cases h
  | cons c s ih =>
      rw [lines] at h
      split_ifs at h with hc
      · rcases List.mem_cons.mp h with rfl | h
        · exact List.not_mem_nil
        · exact ih h
      · cases hs : lines s with
        | nil =>
            rw [hs] at h
            rw [List.mem_singleton.mp h, List.mem_singleton]
            exact fun heq => hc heq.symm
        | cons first rest =>
            rw [hs] at h ih
            rcases List.mem_cons.mp h with rfl | h
            · rw [List.mem_cons, not_or]
              exact ⟨fun heq => hc heq.symm, ih List.mem_cons_self⟩
            · exact ih (List.mem_cons_of_mem _ h)

theorem lines_append (h : newline ∉ line) (s : Bytes) :
    lines (line ++ newline :: s) = line :: lines s := by
  induction line with
  | nil => simp [lines]
  | cons c line ih =>
      rw [List.mem_cons, not_or] at h
      have hc : c ≠ newline := fun heq => h.1 heq.symm
      rw [List.cons_append, lines, if_neg hc, ih h.2]

theorem lines_suffix (s t : Bytes) :
    ∃ first rest, lines (s ++ newline :: t) = first :: (rest ++ lines t) := by
  induction s with
  | nil => exact ⟨[], [], by simp [lines]⟩
  | cons c s ih =>
      obtain ⟨first, rest, ih⟩ := ih
      rw [List.cons_append, lines, ih]
      split_ifs
      · exact ⟨[], first :: rest, rfl⟩
      · exact ⟨c :: first, rest, rfl⟩

end lines

section entry

def escapeByte (c : UInt8) : Bytes :=
  if c = 0 then [239, 191, 189]
  else if c = byte '"' then ascii ['&', '#', '3', '4', ';']
  else if c = byte '&' then ascii ['&', 'a', 'm', 'p', ';']
  else if c = byte '\'' then ascii ['&', '#', '3', '9', ';']
  else if c = byte '+' then ascii ['&', '#', '4', '3', ';']
  else if c = byte '<' then ascii ['&', 'l', 't', ';']
  else if c = byte '>' then ascii ['&', 'g', 't', ';']
  else [c]

def escape (s : Bytes) : Bytes := s.flatMap escapeByte

theorem newline_mem_escapeByte (c : UInt8) : newline ∈ escapeByte c ↔ c = newline := by
  have hall : ∀ n < 256, (newline ∈ escapeByte (UInt8.ofNat n) ↔ UInt8.ofNat n = newline) := by
    decide +kernel
  simpa only [UInt8.ofNat_toNat] using hall c.toNat c.toNat_lt

theorem newline_mem_escape {s : Bytes} : newline ∈ escape s ↔ newline ∈ s := by
  rw [escape, List.mem_flatMap]
  simp only [newline_mem_escapeByte, exists_eq_right]

structure TemplateContext where
  timestamp : Int64
  requestID : Bytes
  path : Bytes
  method : Bytes
  sourceHost : Bytes
  sourcePort : Bytes
  destinationHost : Bytes
  destinationPort : Bytes

def integer (n : Int) : Bytes := ascii ((if n < 0 then ['-'] else []) ++ decimal n.natAbs)

def text (s : String) : Bytes := ascii s.toList

def extensions (context : TemplateContext) : List Bytes :=
  [text "rt=" ++ escape (integer context.timestamp.toInt),
    text "cs1Label=userAuthenticationMechanism",
    text "cs1=oauth-access-token",
    text "cs2Label=vcapRequestId",
    text "cs2=" ++ escape context.requestID,
    text "request=" ++ escape context.path,
    text "requestMethod=" ++ escape context.method,
    text "src=" ++ escape context.sourceHost,
    text "spt=" ++ escape context.sourcePort,
    text "dst=" ++ escape context.destinationHost,
    text "dpt=" ++ escape context.destinationPort]

def fields (context : TemplateContext) : List Bytes :=
  [text "0",
    text "cloud_foundry",
    text "log_cache",
    text "1.0",
    escape context.method ++ text " " ++ escape context.path,
    escape context.method ++ text " " ++ escape context.path,
    text "0",
    (text " ").intercalate (extensions context)]

def logTemplate (context : TemplateContext) : Bytes :=
  text "CEF:" ++ (text "|").intercalate (fields context)

theorem mem_intercalate {c : UInt8} {separator : Bytes} (h : c ∉ separator) (xs : List Bytes) :
    c ∈ separator.intercalate xs ↔ ∃ x ∈ xs, c ∈ x := by
  induction xs with
  | nil => simp [List.intercalate]
  | cons x xs ih =>
      cases xs with
      | nil => simp [List.intercalate]
      | cons y xs =>
          rw [List.intercalate_cons_cons]
          simp [ih, h]

theorem byte_digit_ne_newline {c : Char} (h : c.isDigit = true) : byte c ≠ newline := by
  have hbounds : 48 ≤ c.toNat ∧ c.toNat ≤ 57 := by
    simpa [Char.isDigit, UInt32.le_iff_toNat_le] using h
  have hall : ∀ n ≤ 57, 48 ≤ n → UInt8.ofNat n ≠ newline := by decide
  exact hall c.toNat hbounds.2 hbounds.1

theorem newline_not_mem_integer (n : Int) : newline ∉ integer n := by
  intro h
  obtain ⟨c, hc, hnewline⟩ := List.mem_map.mp h
  rcases List.mem_append.mp hc with hc | hc
  · split_ifs at hc
    · rw [List.mem_singleton.mp hc] at hnewline
      revert hnewline
      decide
    · cases hc
  · exact byte_digit_ne_newline (isDigit_of_mem_decimal hc) hnewline

theorem newline_mem_logTemplate (context : TemplateContext) :
    newline ∈ logTemplate context ↔
      newline ∈ context.requestID ∨ newline ∈ context.path ∨ newline ∈ context.method ∨
        newline ∈ context.sourceHost ∨
        newline ∈ context.sourcePort ∨ newline ∈ context.destinationHost ∨
          newline ∈ context.destinationPort := by
  have hstatic : ∀ s ∈ ["CEF:", "0", "cloud_foundry", "log_cache", "1.0", "rt=",
      "cs1Label=userAuthenticationMechanism", "cs1=oauth-access-token", "cs2Label=vcapRequestId",
      "cs2=", "request=", "requestMethod=", "src=", "spt=", "dst=", "dpt="],
      newline ∉ text s := by decide
  have hspace : newline ∉ text " " := by decide
  have hbar : newline ∉ text "|" := by decide
  simp only [List.forall_mem_cons] at hstatic
  rw [logTemplate, List.mem_append, mem_intercalate hbar]
  simp only [fields, extensions, List.mem_cons, List.not_mem_nil, or_false, exists_eq_or_imp,
    exists_eq_left, List.mem_append, mem_intercalate hspace, newline_mem_escape,
    newline_not_mem_integer, hstatic, hspace, false_or]
  grind only

end entry

section requests

/-- The URL of a request, from its first line. The target of a `CONNECT` may be an
authority, which is then parsed behind a scheme. -/
def requestURL (method target : Bytes) : Except ParseError URL :=
  if method = text "CONNECT" ∧ target.head? ≠ some (byte '/') then
    (fun url => { url with scheme := [] }) <$> parseRequestURI (text "http://" ++ target)
  else parseRequestURI target

structure Request where
  method : Bytes
  target : Bytes
  url : URL
  requestID : Bytes
  forwardedFor : Bytes
  remoteAddr : Bytes
  parsed : requestURL method target = .ok url
  single : ∀ value ∈ [method, requestID, forwardedFor, remoteAddr], newline ∉ value

/-- `net.SplitHostPort`, without the reasons of its errors. -/
def splitHostPort (hostport : Bytes) : Option (Bytes × Bytes) :=
  if byte ':' ∉ hostport then none
  else if hostport.head? = some (byte '[') then
    -- the first closing bracket stands right before the last colon
    if byte ']' ∉ hostport ∨ before (byte ']') hostport ++
      [byte ']'] ≠ beforeLast (byte ':') hostport then none
    else if byte '[' ∈ hostport.tail ∨ byte ']' ∈ after (byte ']') hostport then none
    else some ((before (byte ']') hostport).tail, afterLast (byte ':') hostport)
  else if byte ':' ∈ beforeLast (byte ':') hostport ∨ byte '[' ∈ hostport ∨
    byte ']' ∈ hostport then none
  else some (beforeLast (byte ':') hostport, afterLast (byte ':') hostport)

def remoteAddress (req : Request) : Bytes :=
  let forwarded := before (byte ',') req.forwardedFor
  let remoteAddr := if forwarded = [] then req.remoteAddr else forwarded
  if byte ':' ∈ remoteAddr then remoteAddr else remoteAddr ++ [byte ':']

def extractRemoteInfo (req : Request) : Bytes × Bytes :=
  (splitHostPort (remoteAddress req)).getD ([], [])

structure AccessHandler where
  host : Bytes
  port : Bytes

variable (handler : AccessHandler)

def fullPath (req : Request) : Bytes :=
  if req.url.rawQuery ≠ [] then req.url.path ++ text "?" ++ req.url.rawQuery else req.url.path

def entry (arrival : Int64 × Request) : Bytes :=
  logTemplate ⟨arrival.1, arrival.2.requestID, fullPath arrival.2, arrival.2.method,
    (extractRemoteInfo arrival.2).1, (extractRemoteInfo arrival.2).2, handler.host, handler.port⟩

def logAccess (log : Bytes) (arrival : Int64 × Request) : Bytes :=
  log ++ (entry handler arrival ++ [newline])

theorem mem_beforeLast {b c : UInt8} {s : Bytes} (h : b ∈ beforeLast c s) : b ∈ s :=
  List.mem_of_mem_take h

theorem mem_afterLast {b c : UInt8} {s : Bytes} (h : b ∈ afterLast c s) : b ∈ s :=
  List.mem_reverse.mp ((List.takeWhile_sublist _).subset (List.mem_reverse.mp h))

theorem mem_before {b c : UInt8} {s : Bytes} (h : b ∈ before c s) : b ∈ s :=
  (List.takeWhile_sublist _).subset h

theorem mem_of_splitHostPort {hostport host port : Bytes}
    (h : splitHostPort hostport = some (host, port)) {b : UInt8} (hb : b ∈ host ∨ b ∈ port) :
    b ∈ hostport := by
  rw [splitHostPort] at h
  split_ifs at h
  · cases h
    exact hb.elim (fun hb => mem_before (List.mem_of_mem_tail hb)) mem_afterLast
  · cases h
    exact hb.elim mem_beforeLast mem_afterLast

theorem newline_not_mem_remoteAddress (req : Request) : newline ∉ remoteAddress req := by
  have hforwarded : newline ∉ before (byte ',') req.forwardedFor :=
    fun h => req.single _ (by simp) (mem_before h)
  have hremote : newline ∉ req.remoteAddr := req.single _ (by simp)
  have hcolon : newline ≠ byte ':' := by decide
  simp only [remoteAddress]
  split_ifs <;> simp [hforwarded, hremote, hcolon]

theorem newline_not_mem_remoteInfo (req : Request) :
    newline ∉ (extractRemoteInfo req).1 ∧ newline ∉ (extractRemoteInfo req).2 := by
  have hremote := newline_not_mem_remoteAddress req
  rw [extractRemoteInfo]
  cases hsplit : splitHostPort (remoteAddress req) with
  | none => exact ⟨List.not_mem_nil, List.not_mem_nil⟩
  | some info =>
      exact ⟨fun h => hremote (mem_of_splitHostPort hsplit (Or.inl h)),
        fun h => hremote (mem_of_splitHostPort hsplit (Or.inr h))⟩

theorem mem_of_getScheme {raw scheme rest : Bytes}
    (h : getScheme raw = .ok (scheme, rest)) {b : UInt8} (hb : b ∈ rest) : b ∈ raw := by
  rw [getScheme] at h
  split at h
  · cases h
    exact hb
  · rename_i c rest' hdrop
    have hsuffix : c :: rest' <:+ raw := hdrop ▸ List.dropWhile_suffix _
    split_ifs at h
    · split at h
      · cases h
      · split_ifs at h
        · cases h
          exact hsuffix.subset (List.mem_cons_of_mem c hb)
        · cases h
          exact hb
    · cases h
      exact hb

theorem mem_of_splitQuery {rest : Bytes} {b : UInt8} (hb : b ∈ (splitQuery rest).2.2) :
    b ∈ rest := by
  rw [splitQuery] at hb
  split_ifs at hb
  · cases hb
  · exact (List.dropWhile_sublist _).subset (List.mem_of_mem_tail hb)

theorem rawQuery_of_requestAfterQuery {scheme rawQuery rest : Bytes} {forceQuery : Bool} {url : URL}
    (h : requestAfterQuery scheme forceQuery rawQuery rest = .ok url) :
    url.rawQuery = rawQuery := by
  rw [requestAfterQuery] at h
  split_ifs at h
  · cases h
    rfl
  · obtain ⟨authority, -, h⟩ := bind_ok h
    obtain ⟨path, -, h⟩ := bind_ok h
    cases h
    rfl

theorem newline_not_mem_rawQuery_of_parse {raw : Bytes} {url : URL}
    (h : parseRequestURI raw = .ok url) :
    newline ∉ url.rawQuery := by
  rw [parseRequestURI] at h
  split_ifs at h with hcontrol hempty hstar
  · cases h
    exact List.not_mem_nil
  · obtain ⟨⟨scheme, rest⟩, hscheme, h⟩ := bind_ok h
    intro hnewline
    rw [rawQuery_of_requestAfterQuery h] at hnewline
    have hraw := mem_of_getScheme hscheme (mem_of_splitQuery hnewline)
    exact hcontrol (List.any_eq_true.mpr ⟨newline, hraw, by decide⟩)

theorem newline_not_mem_rawQuery (req : Request) : newline ∉ req.url.rawQuery := by
  have hparsed := req.parsed
  rw [requestURL] at hparsed
  split_ifs at hparsed
  · obtain ⟨url, hurl, heq⟩ := map_ok hparsed
    have hquery := newline_not_mem_rawQuery_of_parse hurl
    rw [heq]
    exact hquery
  · exact newline_not_mem_rawQuery_of_parse hparsed

theorem newline_mem_fullPath (req : Request) : newline ∈ fullPath req ↔ newline ∈ req.url.path := by
  have hmark : newline ∉ text "?" := by decide
  rw [fullPath]
  split_ifs <;> simp [hmark, newline_not_mem_rawQuery]

variable {handler} (hhost : newline ∉ handler.host) (hport : newline ∉ handler.port)
include hhost hport

theorem newline_mem_entry (arrival : Int64 × Request) : newline ∈ entry handler arrival ↔
    newline ∈ arrival.2.url.path := by
  have hmethod : newline ∉ arrival.2.method := arrival.2.single _ (by simp)
  have hrequestID : newline ∉ arrival.2.requestID := arrival.2.single _ (by simp)
  have hremote := newline_not_mem_remoteInfo arrival.2
  rw [entry, newline_mem_logTemplate]
  simp [newline_mem_fullPath, hmethod, hrequestID, hremote, hhost, hport]

end requests

section logs

variable {handler : AccessHandler}

theorem foldl_logAccess (log : Bytes) (arrivals : List (Int64 × Request)) :
    arrivals.foldl (logAccess handler) log = log ++
      arrivals.flatMap fun arrival => entry handler arrival ++ [newline] := by
  induction arrivals generalizing log with
  | nil => simp
  | cons arrival arrivals ih =>
      rw [List.foldl_cons, ih, logAccess, List.flatMap_cons, List.append_assoc]

theorem lines_entries {entries : List Bytes} (h : ∀ e ∈ entries, newline ∉ e) :
    lines (entries.flatMap (· ++ [newline])) = entries := by
  induction entries with
  | nil => rfl
  | cons e entries ih =>
      rw [List.forall_mem_cons] at h
      rw [List.flatMap_cons, List.append_assoc, List.singleton_append, lines_append h.1, ih h.2]

/-- The lines of the log are the entries of the requests, one for each, exactly
if no path that was asked for has a newline in it once it is unescaped. -/
theorem log_lines_iff (handler : AccessHandler) (hhost : newline ∉ handler.host)
    (hport : newline ∉ handler.port) (arrivals : List (Int64 × Request)) :
    lines (arrivals.foldl (logAccess handler) []) = arrivals.map (entry handler) ↔
      ∀ arrival ∈ arrivals, newline ∉ arrival.2.url.path := by
  have hlog : arrivals.foldl (logAccess handler) [] =
      (arrivals.map (entry handler)).flatMap (· ++ [newline]) := by
    rw [foldl_logAccess, List.nil_append, List.flatMap_map]
  rw [hlog]
  constructor
  · intro heq arrival harrival hnewline
    have hline : entry handler arrival ∈ lines
        ((arrivals.map (entry handler)).flatMap (· ++ [newline])) := by
      rw [heq]
      exact List.mem_map_of_mem harrival
    exact not_mem_of_mem_lines hline ((newline_mem_entry hhost hport arrival).mpr hnewline)
  · intro h
    apply lines_entries
    intro e he
    obtain ⟨arrival, harrival, rfl⟩ := List.mem_map.mp he
    rw [newline_mem_entry hhost hport]
    exact h arrival harrival

def getRoot : Request where
  method := text "GET"
  target := text "/"
  url := ⟨[], [], none, [], text "/", false, [], []⟩
  requestID := []
  forwardedFor := []
  remoteAddr := text "10.0.0.1:4000"
  parsed := by decide
  single := by decide

def getAbsolute : Request where
  method := text "GET"
  target := text "http://log-cache:8080/api/v1/read/a%20b?limit=5"
  url := ⟨text "http", [], none, text "log-cache:8080", text "/api/v1/read/a b", false,
    text "limit=5", []⟩
  requestID := text "7f1b"
  forwardedFor := text "10.0.0.2, 10.0.0.3"
  remoteAddr := text "10.0.0.1:4000"
  parsed := by decide +kernel
  single := by decide

theorem log_lines_iff_absolute :
    lines ([(0, getRoot), (1, getAbsolute)].foldl (logAccess ⟨text "proxy", text "8083"⟩) []) =
      [(0, getRoot), (1, getAbsolute)].map (entry ⟨text "proxy", text "8083"⟩) :=
  (log_lines_iff ⟨text "proxy", text "8083"⟩ (by decide) (by decide) _).mpr (by decide)

end logs

section forging

variable {handler : AccessHandler}

def hexDigit (d : UInt8) : UInt8 := if d < 10 then byte '0' + d else byte 'A' + (d - 10)

def percent (c : UInt8) : Bytes := [byte '%', hexDigit (c / 16), hexDigit (c % 16)]

theorem percent_spec (c : UInt8) :
    isHex (hexDigit (c / 16)) = true ∧ isHex (hexDigit (c % 16)) = true ∧
      unhex (hexDigit (c / 16)) * 16 + unhex (hexDigit (c % 16)) = c ∧
      (percent c).any isControl = false ∧ byte '?' ∉ percent c := by
  have hall : ∀ n < 256, isHex (hexDigit (UInt8.ofNat n / 16)) = true ∧
      isHex (hexDigit (UInt8.ofNat n % 16)) = true ∧
      unhex (hexDigit (UInt8.ofNat n / 16)) * 16 + unhex (hexDigit (UInt8.ofNat n % 16)) =
        UInt8.ofNat n ∧
      (percent (UInt8.ofNat n)).any isControl = false ∧ byte '?' ∉ percent (UInt8.ofNat n) := by
        decide +kernel
  simpa only [UInt8.ofNat_toNat] using hall c.toNat c.toNat_lt

theorem unescape_percent_all (s : Bytes) : unescape .path (s.flatMap percent) = .ok s := by
  induction s with
  | nil => rfl
  | cons c s ih =>
      obtain ⟨hhigh, hlow, hvalue, -⟩ := percent_spec c
      have hstep := unescape_percent (hexDigit (c / 16)) (hexDigit (c % 16)) (s.flatMap percent)
      rw [hhigh, hlow, hvalue, ih] at hstep
      exact hstep

theorem getScheme_slash (s : Bytes) : getScheme (byte '/' :: s) = .ok ([], byte '/' :: s) := by
  have hstop : isSchemeByte (byte '/') = false := by decide
  have hcolon : byte '/' ≠ byte ':' := by decide
  rw [getScheme, List.dropWhile_cons_of_neg (by simp [hstop])]
  simp only [hcolon, if_false]

theorem requestAfterQuery_path {rest path : Bytes} (hrest : rest.head? = some (byte '/'))
    (hpath : unescape .path rest = .ok path) (forceQuery : Bool) (rawQuery : Bytes) :
    requestAfterQuery [] forceQuery rawQuery rest =
      .ok ⟨[], [], none, [], path, forceQuery, rawQuery, []⟩ := by
  simp only [requestAfterQuery, hrest, ne_eq, not_true, if_false, requestAuthority, if_true,
    Option.elim_none, hpath]
  rfl

def pathOnly (s : Bytes) : URL := ⟨[], [], none, [], byte '/' :: s, false, [], []⟩

theorem any_isControl_percent (s : Bytes) :
    (byte '/' :: s.flatMap percent).any isControl = false := by
  rw [List.any_cons, List.any_flatMap]
  simp [(percent_spec _).2.2.2.1]
  decide

theorem parseRequestURI_percent (s : Bytes) :
    parseRequestURI (byte '/' :: s.flatMap percent) = .ok (pathOnly s) := by
  have hquery : byte '?' ∉ byte '/' :: s.flatMap percent := by
    have hslash : byte '?' ≠ byte '/' := by decide
    simp [hslash, List.mem_flatMap, (percent_spec _).2.2.2.2]
  have hslash : byte '/' ≠ byte '%' := by decide
  have hstar : byte '/' :: s.flatMap percent ≠ ascii ['*'] := fun h =>
    absurd (List.cons.inj h).1 (by decide)
  have hpath : unescape .path (byte '/' :: s.flatMap percent) = .ok (byte '/' :: s) := by
    rw [unescape_cons hslash, unescape_percent_all]
    rfl
  rw [parseRequestURI, any_isControl_percent, if_neg Bool.false_ne_true,
    if_neg (List.cons_ne_nil _ _), if_neg hstar, getScheme_slash]
  change requestAfterQuery _ (splitQuery _).2.1 (splitQuery _).2.2 (splitQuery _).1 = _
  rw [splitQuery_of_not_mem hquery]
  exact requestAfterQuery_path rfl hpath false []

theorem requestURL_percent (method s : Bytes) :
    requestURL method (byte '/' :: s.flatMap percent) = .ok (pathOnly s) := by
  rw [requestURL, if_neg (by simp)]
  exact parseRequestURI_percent s

theorem intercalate_split (separator : Bytes) {xs : List Bytes} {x : Bytes} (h : x ∈ xs) :
    ∃ left right, separator.intercalate xs = left ++ (x ++ right) := by
  induction xs with
  | nil => cases h
  | cons y xs ih =>
      cases xs with
      | nil =>
          rw [List.mem_singleton.mp h]
          exact ⟨[], [], by simp [List.intercalate]⟩
      | cons z xs =>
          rw [List.intercalate_cons_cons]
          rcases List.mem_cons.mp h with rfl | h
          · exact ⟨[], separator ++ separator.intercalate (z :: xs), by simp⟩
          · obtain ⟨left, right, hsplit⟩ := ih h
            exact ⟨y ++ separator ++ left, right, by simp [hsplit]⟩

theorem logTemplate_split (context : TemplateContext) :
    ∃ left right, logTemplate context = left ++ (escape context.path ++ right) := by
  have hfield : escape context.method ++ text " " ++ escape context.path ∈ fields context := by
    simp [fields]
  obtain ⟨left, right, hsplit⟩ := intercalate_split (text "|") hfield
  refine ⟨text "CEF:" ++ left ++ (escape context.method ++ text " "), right, ?_⟩
  rw [logTemplate, hsplit]
  simp

theorem escape_lines {forged : Bytes} (h : escape forged = forged) :
    escape (byte '/' :: newline :: (forged ++ [newline])) = byte '/' :: newline ::
      (forged ++ [newline]) := by
  have hslash : escapeByte (byte '/') = [byte '/'] := by decide
  have hnewline : escapeByte newline = [newline] := by decide
  have hforged : forged.flatMap escapeByte = forged := h
  simp [escape, hslash, hnewline, hforged]

def forging (req : Request) (forged : Bytes) : Request where
  method := req.method
  target := byte '/' :: (newline :: (forged ++ [newline])).flatMap percent
  url := pathOnly (newline :: (forged ++ [newline]))
  requestID := req.requestID
  forwardedFor := req.forwardedFor
  remoteAddr := req.remoteAddr
  parsed := requestURL_percent _ _
  single := req.single

/-- Whatever the log and the request, a target with escapes puts a line of the
sender's own into the log, such as the entry of a request that was never made. -/
theorem forged_line (handler : AccessHandler) (log : Bytes) (time : Int64) (req : Request)
    (forged : Bytes) (hline : newline ∉ forged) (hplain : escape forged = forged) :
    ∃ req' : Request, req'.method = req.method ∧ req'.requestID = req.requestID ∧
      req'.forwardedFor = req.forwardedFor ∧ req'.remoteAddr = req.remoteAddr ∧
        req'.target.any isControl = false ∧
      forged ∈ lines (logAccess handler log (time, req')) := by
  have hcontrol : (forging req forged).target.any isControl = false := any_isControl_percent _
  refine ⟨forging req forged, rfl, rfl, rfl, rfl, hcontrol, ?_⟩
  obtain ⟨left, right, hsplit⟩ :=
    logTemplate_split ⟨time, req.requestID, fullPath (forging req forged), req.method,
    (extractRemoteInfo (forging req forged)).1, (extractRemoteInfo (forging req forged)).2,
    handler.host, handler.port⟩
  have hentry : entry handler (time, forging req forged) =
      left ++ (byte '/' :: newline :: (forged ++ [newline]) ++ right) := by
    rw [← escape_lines hplain]
    exact hsplit
  have hlog : logAccess handler log (time, forging req forged) =
      (log ++ left ++ [byte '/']) ++ newline :: (forged ++ newline :: (right ++ [newline])) := by
    rw [logAccess, hentry]
    simp
  obtain ⟨first, rest, hlines⟩ :=
    lines_suffix (log ++ left ++ [byte '/']) (forged ++ newline :: (right ++ [newline]))
  rw [hlog, hlines, lines_append hline]
  simp

theorem forged_line_root :
    ∃ req' : Request, req'.method = text "GET" ∧ req'.target.any isControl = false ∧
      text "CEF:0|cloud_foundry|log_cache|1.0|GET /|GET /|0|src=10.0.0.2" ∈ lines
        (logAccess ⟨[], []⟩ [] (0, req')) := by
  obtain ⟨req', hmethod, -, -, -, htarget, hforged⟩ := forged_line ⟨[], []⟩ [] 0 getRoot
    (text "CEF:0|cloud_foundry|log_cache|1.0|GET /|GET /|0|src=10.0.0.2") (by decide) (by decide)
  exact ⟨req', hmethod, htarget, hforged⟩

end forging

end LogCache.AccessLog
