import LogCache.Runs
import Mathlib.Data.List.TakeWhile

namespace LogCache.NetUrl

open Runs

/-- A string of the source, which need not be valid UTF-8. -/
abbrev Bytes := List UInt8

def byte (c : Char) : UInt8 := UInt8.ofNat c.toNat

inductive ParseError
  | controlCharacter
  | missingProtocolScheme
  | colonInFirstSegment
  | escape (text : Bytes)
  | invalidHost (text : Bytes)
  | missingBracket
  | invalidPort (text : Bytes)
  | invalidUserinfo
  | emptyURL
  | invalidRequestURI
deriving DecidableEq

section bytes

def isLetter (c : UInt8) : Bool :=
  decide (byte 'a' ≤ c) && decide (c ≤ byte 'z') || decide (byte 'A' ≤ c) && decide (c ≤ byte 'Z')

def isDigit (c : UInt8) : Bool := decide (byte '0' ≤ c) && decide (c ≤ byte '9')

def isHex (c : UInt8) : Bool :=
  isDigit c || decide (byte 'a' ≤ c) && decide (c ≤ byte 'f') || decide (byte 'A' ≤ c) &&
    decide (c ≤ byte 'F')

def unhex (c : UInt8) : UInt8 :=
  if isDigit c then c - byte '0' else if byte 'a' ≤ c then c - byte 'a' + 10 else c - byte 'A' + 10

def isControl (c : UInt8) : Bool := decide (c < byte ' ') || decide (c = 127)

def ascii (chars : List Char) : Bytes := chars.map byte

def shouldEscapeHost (c : UInt8) : Bool :=
  !(isLetter c || isDigit c || decide (c ∈ ascii
    ['!', '$', '&', '\'', '(', ')', '*', '+', ',', ';', '=', ':', '[', ']', '<', '>', '"', '-',
      '_', '.', '~']))

def before (c : UInt8) (s : Bytes) : Bytes := s.takeWhile fun b => decide (b ≠ c)

def after (c : UInt8) (s : Bytes) : Bytes := (s.dropWhile fun b => decide (b ≠ c)).tail

def afterLast (c : UInt8) (s : Bytes) : Bytes :=
  (s.reverse.takeWhile fun b => decide (b ≠ c)).reverse

def beforeLast (c : UInt8) (s : Bytes) : Bytes := s.take (s.length - (afterLast c s).length - 1)

/-- The string cut where a pattern first occurs in it, which stays with what
follows. -/
def cutAt (pattern : Bytes) : Bytes → Option (Bytes × Bytes)
  | [] => if pattern = [] then some ([], []) else none
  | c :: s =>
      if pattern.isPrefixOf (c :: s) then some ([], c :: s)
      else (cutAt pattern s).map fun (head, rest) => (c :: head, rest)

end bytes

section unescape

inductive Mode
  | path
  | host
  | zone
  | userPassword
  | fragment

def escapable (mode : Mode) (a b : UInt8) : Bool :=
  match mode with
  | .host => !decide (unhex a < 8) || decide ([a, b] = ascii ['2', '5'])
  | .zone =>
      decide ([a, b] = ascii ['2', '5']) || decide (unhex a * 16 + unhex b = byte ' ') ||
        !shouldEscapeHost (unhex a * 16 + unhex b)
  | .path | .userPassword | .fragment => true

def invalid (mode : Mode) (c : UInt8) : Bool :=
  match mode with
  | .host | .zone => decide (c < 128) && shouldEscapeHost c
  | .path | .userPassword | .fragment => false

def unescape (mode : Mode) : Bytes → Except ParseError Bytes
  | [] => .ok []
  | c :: rest =>
      if c = byte '%' then
        match rest with
        | [] => .error (.escape [c])
        | [a] => .error (.escape [c, a])
        | a :: b :: rest =>
            if isHex a && isHex b && escapable mode a b then
              ((unhex a * 16 + unhex b) :: ·) <$> unescape mode rest
            else .error (.escape [c, a, b])
      else if invalid mode c then .error (.invalidHost [c])
      else (c :: ·) <$> unescape mode rest

end unescape

section authority

structure Userinfo where
  username : Bytes
  password : Option Bytes
deriving DecidableEq

def validOptionalPort : Bytes → Bool
  | [] => true
  | c :: digits => decide (c = byte ':') && digits.all isDigit

def parseHost (host : Bytes) : Except ParseError Bytes :=
  if host.head? = some (byte '[') then
    let colonPort := afterLast (byte ']') host
    let i := host.length - colonPort.length - 1
    if byte ']' ∉ host then .error .missingBracket
    else if !validOptionalPort colonPort then .error (.invalidPort colonPort)
    else
      match cutAt (ascii ['%', '2', '5']) (host.take i) with
      | some (address, zone) => do
          let host₁ ← unescape .host address
          let host₂ ← unescape .zone zone
          let host₃ ← unescape .host (host.drop i)
          return host₁ ++ host₂ ++ host₃
      | none => unescape .host host
  else
    let colonPort := byte ':' :: afterLast (byte ':') host
    if byte ':' ∈ host ∧ !validOptionalPort colonPort then .error (.invalidPort colonPort)
    else unescape .host host

def validUserinfo (s : Bytes) : Bool :=
  s.all fun c => isLetter c || isDigit c || decide (c ∈ ascii
    ['-', '.', '_', ':', '~', '!', '$', '&', '\'', '(', ')', '*', '+', ',', ';', '=', '%', '@'])

def parseUserinfo (userinfo : Bytes) : Except ParseError Userinfo :=
  if !validUserinfo userinfo then .error .invalidUserinfo
  else if byte ':' ∈ userinfo then do
    let username ← unescape .userPassword (before (byte ':') userinfo)
    let password ← unescape .userPassword (after (byte ':') userinfo)
    return ⟨username, some password⟩
  else do
    let username ← unescape .userPassword userinfo
    return ⟨username, none⟩

def parseAuthority (authority : Bytes) : Except ParseError (Option Userinfo × Bytes) :=
  if byte '@' ∈ authority then do
    let host ← parseHost (afterLast (byte '@') authority)
    let user ← parseUserinfo (beforeLast (byte '@') authority)
    return (some user, host)
  else do
    let host ← parseHost authority
    return (none, host)

end authority

section parse

/-- `URL`, without the hints on how a part was encoded. A URL with a scheme and
no slash after it is `rootless`: the source calls that part opaque. -/
structure URL where
  scheme : Bytes
  rootless : Bytes
  user : Option Userinfo
  host : Bytes
  path : Bytes
  forceQuery : Bool
  rawQuery : Bytes
  fragment : Bytes
deriving DecidableEq

def toLower (c : UInt8) : UInt8 := if byte 'A' ≤ c ∧ c ≤ byte 'Z' then c + 32 else c

def isSchemeByte (c : UInt8) : Bool := isLetter c || isDigit c || decide (c ∈ ascii ['+', '-', '.'])

def getScheme (rawURL : Bytes) : Except ParseError (Bytes × Bytes) :=
  match rawURL.dropWhile isSchemeByte with
  | [] => .ok ([], rawURL)
  | c :: rest =>
      if c = byte ':' then
        match rawURL.takeWhile isSchemeByte with
        | [] => .error .missingProtocolScheme
        | d :: scheme => if isLetter d then .ok (d :: scheme, rest) else .ok ([], rawURL)
      else .ok ([], rawURL)

def splitQuery (rest : Bytes) : Bytes × Bool × Bytes :=
  if rest.getLast? = some (byte '?') ∧ rest.count (byte '?') = 1 then (rest.dropLast, true, [])
  else (before (byte '?') rest, false, after (byte '?') rest)

def splitAuthority (scheme rest : Bytes) : Option Bytes × Bytes :=
  if (scheme ≠ [] ∨ rest.take 3 ≠ ascii ['/', '/', '/']) ∧ rest.take 2 = ascii ['/', '/'] then
    (some (before (byte '/') (rest.drop 2)), (rest.drop 2).dropWhile fun b => decide (b ≠ byte '/'))
  else (none, rest)

def parseAfterQuery (scheme : Bytes) (forceQuery : Bool) (rawQuery rest : Bytes) :
    Except ParseError URL :=
  if rest.head? ≠ some (byte '/') ∧ scheme ≠ []
    then .ok ⟨scheme, rest, none, [], [], forceQuery, rawQuery, []⟩
  else if rest.head? ≠ some (byte '/') ∧ byte ':' ∈ before (byte '/') rest
    then .error .colonInFirstSegment
  else do
    let (user, host) ← (splitAuthority scheme rest).1.elim (.ok (none, [])) parseAuthority
    let path ← unescape .path (splitAuthority scheme rest).2
    return ⟨scheme, [], user, host, path, forceQuery, rawQuery, []⟩

def parseWithoutFragment (rawURL : Bytes) : Except ParseError URL :=
  if rawURL.any isControl then .error .controlCharacter
  else if rawURL = ascii ['*'] then .ok ⟨[], [], none, [], ascii ['*'], false, [], []⟩
  else do
    let (scheme, rest) ← getScheme rawURL
    let (rest, forceQuery, rawQuery) := splitQuery rest
    parseAfterQuery (scheme.map toLower) forceQuery rawQuery rest

def parse (rawURL : Bytes) : Except ParseError URL := do
  let url ← parseWithoutFragment (before (byte '#') rawURL)
  let fragment ← unescape .fragment (after (byte '#') rawURL)
  return { url with fragment := fragment }

/-- Without a scheme, two slashes do not begin an authority. -/
def requestAuthority (scheme rest : Bytes) : Option Bytes × Bytes :=
  if scheme = [] then (none, rest) else splitAuthority scheme rest

def requestAfterQuery (scheme : Bytes) (forceQuery : Bool) (rawQuery rest : Bytes) :
    Except ParseError URL :=
  if rest.head? ≠ some (byte '/') then
    if scheme ≠ [] then .ok ⟨scheme, rest, none, [], [], forceQuery, rawQuery, []⟩
    else .error .invalidRequestURI
  else do
    let (user, host) ← (requestAuthority scheme rest).1.elim (.ok (none, [])) parseAuthority
    let path ← unescape .path (requestAuthority scheme rest).2
    return ⟨scheme, [], user, host, path, forceQuery, rawQuery, []⟩

/-- `url.ParseRequestURI`, which takes a number sign for a part of the path. -/
def parseRequestURI (rawURL : Bytes) : Except ParseError URL :=
  if rawURL.any isControl then .error .controlCharacter
  else if rawURL = [] then .error .emptyURL
  else if rawURL = ascii ['*'] then .ok ⟨[], [], none, [], ascii ['*'], false, [], []⟩
  else do
    let (scheme, rest) ← getScheme rawURL
    let (rest, forceQuery, rawQuery) := splitQuery rest
    requestAfterQuery (scheme.map toLower) forceQuery rawQuery rest

end parse

section cutting

variable {c : UInt8} {s t : Bytes}

theorem before_append_of_mem (h : c ∈ s) (t : Bytes) : before c (s ++ t) = before c s := by
  induction s with
  | nil => exact absurd h List.not_mem_nil
  | cons b s ih =>
      by_cases hb : b = c
      · simp [before, hb]
      · have hmem : c ∈ s := (List.mem_cons.mp h).resolve_left (Ne.symm hb)
        simpa [before, hb] using ih hmem

theorem before_append_of_not_mem (h : c ∉ s) (t : Bytes) : before c (s ++ t) = s ++ before c t := by
  induction s with
  | nil => rfl
  | cons b s ih =>
      rw [List.mem_cons, not_or] at h
      simpa [before, Ne.symm h.1] using ih h.2

theorem before_of_not_mem (h : c ∉ s) : before c s = s := by
  have happend := before_append_of_not_mem h []
  rw [List.append_nil] at happend
  exact happend.trans (List.append_nil s)

theorem after_of_not_mem (h : c ∉ s) : after c s = [] := by
  induction s with
  | nil => rfl
  | cons b s ih =>
      rw [List.mem_cons, not_or] at h
      simpa [after, Ne.symm h.1] using ih h.2

theorem not_mem_before (c : UInt8) (s : Bytes) : c ∉ before c s := by
  intro h
  simpa using List.mem_takeWhile_imp h

theorem length_before_lt (h : c ∈ s) : (before c s).length < s.length := by
  induction s with
  | nil => exact absurd h List.not_mem_nil
  | cons b s ih =>
      by_cases hb : b = c
      · simp [before, hb]
      · have hmem : c ∈ s := (List.mem_cons.mp h).resolve_left (Ne.symm hb)
        simpa [before, hb] using ih hmem

theorem splitQuery_fst (rest : Bytes) : (splitQuery rest).1 = before (byte '?') rest := by
  rw [splitQuery]
  split_ifs with h
  · obtain ⟨hlast, hcount⟩ := h
    obtain ⟨init, rfl⟩ := List.getLast?_eq_some_iff.mp hlast
    have hnot : byte '?' ∉ init := by
      rw [List.count_append, List.count_singleton_self] at hcount
      exact List.count_eq_zero.mp (by omega)
    rw [List.dropLast_concat, before_append_of_not_mem hnot]
    simp [before]
  · rfl

theorem splitQuery_of_not_mem {rest : Bytes} (h : byte '?' ∉ rest) :
    splitQuery rest = (rest, false, []) := by
  have hlast : ¬ (rest.getLast? = some (byte '?') ∧ rest.count (byte '?') = 1) :=
    fun ⟨hlast, _⟩ => h (List.mem_of_getLast? hlast)
  rw [splitQuery, if_neg hlast, before_of_not_mem h, after_of_not_mem h]

end cutting

section slash

theorem takeWhile_stop {p : UInt8 → Bool} {c : UInt8} (hc : p c = false) (s t : Bytes) :
    (s ++ c :: t).takeWhile p = s.takeWhile p := by
  induction s with
  | nil => simp [hc]
  | cons b s ih => cases hb : p b <;> simp [hb, ih]

theorem dropWhile_stop {p : UInt8 → Bool} {c : UInt8} (hc : p c = false) (s t : Bytes) :
    (s ++ c :: t).dropWhile p = s.dropWhile p ++ c :: t := by
  induction s with
  | nil => simp [hc]
  | cons b s ih => cases hb : p b <;> simp [hb, ih]

theorem getScheme_append_slash (base s : Bytes) :
    getScheme (base ++ byte '/' :: s) = (fun r => (r.1, r.2 ++ byte '/' :: s)) <$>
      getScheme base := by
  have hstop : isSchemeByte (byte '/') = false := by decide
  rw [getScheme, getScheme, takeWhile_stop hstop, dropWhile_stop hstop]
  cases base.dropWhile isSchemeByte with
  | nil => rfl
  | cons c rest =>
      simp only [List.cons_append]
      split_ifs
      · cases base.takeWhile isSchemeByte with
        | nil => rfl
        | cons d scheme =>
            simp only
            split_ifs <;> rfl
      · rfl

theorem take_append_slash {base : Bytes} {n : Nat} (h : n ≤ base.length) (s : Bytes) :
    (base ++ byte '/' :: s).take n = base.take n := List.take_append_of_le_length h

theorem splitAuthority_append_slash (scheme : Bytes) {base : Bytes} (h : 3 ≤ base.length)
    (s : Bytes) :
    splitAuthority scheme (base ++ byte '/' :: s) =
      ((splitAuthority scheme base).1, (splitAuthority scheme base).2 ++ byte '/' :: s) := by
  have hdrop : (base ++ byte '/' :: s).drop 2 = base.drop 2 ++ byte '/' :: s :=
    List.drop_append_of_le_length (by omega)
  rw [splitAuthority, splitAuthority, take_append_slash h, take_append_slash (by omega), hdrop]
  split_ifs
  · rw [before, takeWhile_stop (by simp), dropWhile_stop (by simp)]
    rfl
  · rfl

theorem unescape_cons {c : UInt8} (hc : c ≠ byte '%') (s : Bytes) :
    unescape .path (c :: s) = (c :: ·) <$> unescape .path s := by
  rw [unescape.eq_def]
  simp only [if_neg hc, invalid, Bool.false_eq_true, if_false]

theorem unescape_percent (a b : UInt8) (s : Bytes) :
    unescape .path (byte '%' :: a :: b :: s) =
      if isHex a && isHex b then ((unhex a * 16 + unhex b) :: ·) <$> unescape .path s
      else .error (.escape [byte '%', a, b]) := by
  rw [unescape, if_pos rfl]
  simp only [escapable, Bool.and_true]

theorem unescape_append_slash {base s path : Bytes}
    (h : unescape .path (base ++ byte '/' :: s) = .ok path) :
    ∃ p q, unescape .path base = .ok p ∧ unescape .path s = .ok q ∧ path = p ++ byte '/' :: q := by
  have hslash : isHex (byte '/') = false := by decide
  induction base using unescape.induct .path generalizing path with
  | case1 =>
      rw [List.nil_append, unescape_cons (by decide)] at h
      obtain ⟨q, hq, rfl⟩ := map_ok h
      exact ⟨[], q, rfl, hq, rfl⟩
  -- In the next two cases the escape would take the slash for a digit, and fails.
  | case2 =>
      cases s with
      | nil => cases h
      | cons a s =>
          change unescape .path (byte '%' :: byte '/' :: a :: s) = .ok path at h
          rw [unescape_percent, hslash] at h
          cases h
  | case3 a =>
      change unescape .path (byte '%' :: a :: byte '/' :: s) = .ok path at h
      rw [unescape_percent, hslash, Bool.and_false] at h
      cases h
  | case4 a b rest hhex ih =>
      rw [escapable, Bool.and_true] at hhex
      change unescape .path (byte '%' :: a :: b :: (rest ++ byte '/' :: s)) = .ok path at h
      rw [unescape_percent, if_pos hhex] at h
      obtain ⟨path', hpath, rfl⟩ := map_ok h
      obtain ⟨p, q, hp, hq, rfl⟩ := ih hpath
      refine ⟨(unhex a * 16 + unhex b) :: p, q, ?_, hq, rfl⟩
      rw [unescape_percent, if_pos hhex, hp]
      rfl
  | case5 a b rest hhex =>
      rw [escapable, Bool.and_true] at hhex
      change unescape .path (byte '%' :: a :: b :: (rest ++ byte '/' :: s)) = .ok path at h
      rw [unescape_percent, if_neg hhex] at h
      cases h
  | case6 c rest hc hinvalid => cases hinvalid
  | case7 c rest hc _ ih =>
      rw [List.cons_append, unescape_cons hc] at h
      obtain ⟨path', hpath, rfl⟩ := map_ok h
      obtain ⟨p, q, hp, hq, rfl⟩ := ih hpath
      refine ⟨c :: p, q, ?_, hq, rfl⟩
      rw [unescape_cons hc, hp]
      rfl

theorem unescape_spec {s t : Bytes} (h : unescape .path s = .ok t) :
    t.length ≤ s.length ∧ (t.length = s.length → byte '%' ∉ s) ∧ (byte '%' ∉ s → t = s) := by
  induction s using unescape.induct .path generalizing t with
  | case1 =>
      cases h
      exact ⟨Nat.le_refl _, fun _ => List.not_mem_nil, fun _ => rfl⟩
  | case2 => cases h
  | case3 a => cases h
  | case4 a b rest hhex ih =>
      rw [escapable, Bool.and_true] at hhex
      rw [unescape_percent, if_pos hhex] at h
      obtain ⟨t', ht, rfl⟩ := map_ok h
      have hle := (ih ht).1
      refine ⟨?_, fun hlength => ?_, fun hnot => absurd List.mem_cons_self hnot⟩
      · simp only [List.length_cons]
        omega
      · simp only [List.length_cons] at hlength
        omega
  | case5 a b rest hhex =>
      rw [escapable, Bool.and_true] at hhex
      rw [unescape_percent, if_neg hhex] at h
      cases h
  | case6 c rest hc hinvalid => cases hinvalid
  | case7 c rest hc _ ih =>
      rw [unescape_cons hc] at h
      obtain ⟨t', ht, rfl⟩ := map_ok h
      obtain ⟨hle, hnot, heq⟩ := ih ht
      simp only [List.length_cons, List.mem_cons, not_or, List.cons.injEq, true_and]
      exact ⟨by omega, fun hlength => ⟨Ne.symm hc, hnot (by omega)⟩, fun h => heq h.2⟩

end slash

section segments

def lastSegment (path : Bytes) : Bytes := afterLast (byte '/') path

theorem lastSegment_append_slash (p q : Bytes) :
    lastSegment (p ++ byte '/' :: q) = lastSegment q := by
  rw [lastSegment, lastSegment, afterLast, afterLast, List.reverse_append, List.reverse_cons,
    List.append_assoc, List.singleton_append, takeWhile_stop (by simp)]

theorem lastSegment_of_not_mem {q : Bytes} (h : byte '/' ∉ q) : lastSegment q = q := by
  have hbefore : before (byte '/') q.reverse = q.reverse := before_of_not_mem (by simpa using h)
  rw [lastSegment, afterLast]
  exact (congrArg List.reverse hbefore).trans (List.reverse_reverse q)

theorem not_mem_lastSegment (q : Bytes) : byte '/' ∉ lastSegment q := by
  rw [lastSegment, afterLast, List.mem_reverse]
  exact not_mem_before (byte '/') q.reverse

theorem length_lastSegment_le (q : Bytes) : (lastSegment q).length ≤ q.length := by
  rw [lastSegment, afterLast, List.length_reverse]
  exact (List.takeWhile_prefix _).length_le.trans List.length_reverse.le

end segments

section parts

variable {rawURL base scheme rest s : Bytes} {url : URL}

theorem mem_getScheme_iff (h : getScheme rawURL = .ok (scheme, rest)) {c : UInt8}
    (hc : isSchemeByte c = false) (hcolon : c ≠ byte ':') : c ∈ rest ↔ c ∈ rawURL := by
  have hsplit := @List.takeWhile_append_dropWhile _ isSchemeByte rawURL
  have htake : c ∉ rawURL.takeWhile isSchemeByte := by
    intro hmem
    rw [List.mem_takeWhile_imp hmem] at hc
    cases hc
  rw [getScheme] at h
  cases hdrop : rawURL.dropWhile isSchemeByte with
  | nil =>
      rw [hdrop] at h
      cases h
      rfl
  | cons d rest' =>
      simp only [hdrop] at h hsplit
      split_ifs at h with hd
      · cases hname : rawURL.takeWhile isSchemeByte with
        | nil =>
            rw [hname] at h
            cases h
        | cons b name =>
            simp only [hname] at h
            split_ifs at h
            · cases h
              rw [← hsplit, List.mem_append, List.mem_cons]
              simp [htake, hd, hcolon]
            · cases h
              rfl
      · cases h
        rfl

theorem parseAfterQuery_ok {forceQuery : Bool} {rawQuery : Bytes}
    (h : parseAfterQuery scheme forceQuery rawQuery rest = .ok url) :
    url.forceQuery = forceQuery ∧ url.rawQuery = rawQuery ∧
      if rest.head? ≠ some (byte '/') ∧ scheme ≠ [] then url.path = []
      else unescape .path (splitAuthority scheme rest).2 = .ok url.path := by
  rw [parseAfterQuery] at h
  by_cases hrootless : rest.head? ≠ some (byte '/') ∧ scheme ≠ []
  · rw [if_pos hrootless] at h
    cases h
    exact ⟨rfl, rfl, (if_pos hrootless).mpr rfl⟩
  · rw [if_neg hrootless] at h
    split_ifs at h
    obtain ⟨_, _, h⟩ := bind_ok h
    obtain ⟨path, hpath, h⟩ := bind_ok h
    cases h
    exact ⟨rfl, rfl, (if_neg hrootless).mpr hpath⟩

theorem parseWithoutFragment_ok (h : parseWithoutFragment (base ++ byte '/' :: s) = .ok url) :
    ∃ scheme rest, getScheme base = .ok (scheme, rest) ∧
      parseAfterQuery (scheme.map toLower) (splitQuery (rest ++ byte '/' :: s)).2.1
        (splitQuery (rest ++ byte '/' :: s)).2.2 (splitQuery (rest ++ byte '/' :: s)).1 =
          .ok url := by
  have hstar : base ++ byte '/' :: s ≠ ascii ['*'] := by
    intro hstar
    have hmem : byte '/' ∈ ascii ['*'] := hstar ▸ List.mem_append_right base List.mem_cons_self
    revert hmem
    decide
  rw [parseWithoutFragment, if_neg hstar] at h
  split_ifs at h
  obtain ⟨⟨scheme, rest⟩, hscheme, h⟩ := bind_ok h
  rw [getScheme_append_slash] at hscheme
  obtain ⟨⟨scheme', rest'⟩, hscheme', heq⟩ := map_ok hscheme
  cases heq
  exact ⟨scheme', rest', hscheme', h⟩

theorem parse_ok (h : parse rawURL = .ok url) :
    ∃ url', parseWithoutFragment (before (byte '#') rawURL) = .ok url' ∧
      unescape .fragment (after (byte '#') rawURL) = .ok url.fragment ∧
      url.path = url'.path ∧ url.forceQuery = url'.forceQuery ∧ url.rawQuery = url'.rawQuery := by
  rw [parse] at h
  obtain ⟨url', hurl, h⟩ := bind_ok h
  obtain ⟨fragment, hfragment, h⟩ := bind_ok h
  cases h
  exact ⟨url', hurl, hfragment, rfl, rfl, rfl⟩

end parts

section base

variable {base scheme rest : Bytes}

def stem (s : Bytes) : Bytes := before (byte '?') (before (byte '#') s)

theorem stem_of_not_mem {s : Bytes} (hquery : byte '?' ∉ s) (hhash : byte '#' ∉ s) :
    stem s = s := by
  rw [stem, before_of_not_mem hhash, before_of_not_mem hquery]

theorem length_stem_le (s : Bytes) : (stem s).length ≤ s.length :=
  (List.takeWhile_prefix _).length_le.trans (List.takeWhile_prefix _).length_le

theorem not_mem_of_length_stem {s : Bytes} (h : (stem s).length = s.length) :
    byte '?' ∉ s ∧ byte '#' ∉ s := by
  have hhash : byte '#' ∉ s := by
    intro hmem
    have hlt := length_before_lt hmem
    have hle : (stem s).length ≤ (before (byte '#') s).length := (List.takeWhile_prefix _).length_le
    omega
  refine ⟨fun hmem => ?_, hhash⟩
  rw [stem, before_of_not_mem hhash] at h
  exact absurd h (length_before_lt hmem).ne

theorem parse_parts (hhash : byte '#' ∉ base) {s : Bytes} {url : URL}
    (h : parse (base ++ byte '/' :: s) = .ok url) :
    ∃ scheme rest url', getScheme base = .ok (scheme, rest) ∧
      parseAfterQuery (scheme.map toLower) (splitQuery
        (rest ++ byte '/' :: before (byte '#') s)).2.1
        (splitQuery (rest ++ byte '/' :: before (byte '#') s)).2.2
        (splitQuery (rest ++ byte '/' :: before (byte '#') s)).1 = .ok url' ∧
      unescape .fragment (after (byte '#') (base ++ byte '/' :: s)) = .ok url.fragment ∧
      url.path = url'.path ∧ url.forceQuery = url'.forceQuery ∧ url.rawQuery = url'.rawQuery := by
  obtain ⟨url', hurl, hsame⟩ := parse_ok h
  have hcut : before (byte '#') (base ++ byte '/' :: s) = base ++ byte '/' ::
      before (byte '#') s := by
    rw [before_append_of_not_mem hhash]
    simp [before, show byte '/' ≠ byte '#' by decide]
  rw [hcut] at hurl
  obtain ⟨scheme, rest, hscheme, hparse⟩ := parseWithoutFragment_ok hurl
  exact ⟨scheme, rest, url', hscheme, hparse, hsame⟩

theorem parse_append_slash (hhash : byte '#' ∉ base) (hscheme : getScheme base = .ok (scheme, rest))
    (hquery : byte '?' ∉ rest) (hlength : 3 ≤ rest.length)
    (hroot : rest.head? = some (byte '/') ∨ scheme = []) {s : Bytes} {url : URL}
    (h : parse (base ++ byte '/' :: s) = .ok url) :
    (∃ p q, unescape .path (splitAuthority (scheme.map toLower) rest).2 = .ok p ∧
      unescape .path (stem s) = .ok q ∧
      url.path = p ++ byte '/' :: q) ∧
    (byte '?' ∉ s → byte '#' ∉ s → url.forceQuery = false ∧ url.rawQuery = [] ∧
      url.fragment = []) := by
  obtain ⟨scheme', rest', url', hscheme', hparse, hfragment, hpath, hforce, hraw⟩ :=
    parse_parts hhash h
  cases hscheme.symm.trans hscheme'
  have hfst : (splitQuery (rest ++ byte '/' :: before (byte '#') s)).1 =
      rest ++ byte '/' :: stem s := by
    rw [splitQuery_fst, before_append_of_not_mem hquery, stem]
    simp [before, show byte '/' ≠ byte '?' by decide]
  obtain ⟨hforce', hraw', hpath'⟩ := parseAfterQuery_ok hparse
  constructor
  · have hhead : (rest ++ byte '/' :: stem s).head? = rest.head? := by
      cases rest with
      | nil => simp at hlength
      | cons c rest => rfl
    have hrooted :
        ¬ ((rest ++ byte '/' :: stem s).head? ≠ some (byte '/') ∧ scheme.map toLower ≠ []) := by
      rw [hhead]
      rintro ⟨hne, hscheme⟩
      rcases hroot with hroot | hroot
      · exact hne hroot
      · exact hscheme (by rw [hroot]; rfl)
    rw [hfst, if_neg hrooted, splitAuthority_append_slash _ hlength] at hpath'
    obtain ⟨p, q, hp, hq, hpq⟩ := unescape_append_slash hpath'
    exact ⟨p, q, hp, hq, hpath.trans hpq⟩
  · intro hs hs'
    have hnone : byte '?' ∉ rest ++ byte '/' :: before (byte '#') s := by
      rw [before_of_not_mem hs', List.mem_append, List.mem_cons]
      simp [hquery, hs, show byte '?' ≠ byte '/' by decide]
    rw [splitQuery_of_not_mem hnone] at hforce' hraw'
    have hafter : after (byte '#') (base ++ byte '/' :: s) = [] := by
      apply after_of_not_mem
      simp [hhash, hs', show byte '#' ≠ byte '/' by decide]
    rw [hafter] at hfragment
    have hnil : (.ok [] : Except ParseError Bytes) = .ok url.fragment := hfragment
    exact ⟨hforce.trans hforce', hraw.trans hraw', (Except.ok.inj hnil).symm⟩

/-- Behind a base that ends in a query or a fragment, or has a scheme and no
slash after it, a string does not come to stand in the path. -/
theorem parse_path_const {s s' : Bytes} {url url' : URL}
    (h : parse (base ++ byte '/' :: s) = .ok url) (h' : parse (base ++ byte '/' :: s') = .ok url')
    (hbase : byte '#' ∈ base ∨ ∀ scheme rest, getScheme base = .ok (scheme, rest) →
      byte '?' ∈ rest ∨
      rest ≠ [] ∧ rest.head? ≠ some (byte '/') ∧ scheme ≠ []) : url.path = url'.path := by
  by_cases hhash : byte '#' ∈ base
  · obtain ⟨v, hv, _, hpath, _⟩ := parse_ok h
    obtain ⟨v', hv', _, hpath', _⟩ := parse_ok h'
    rw [before_append_of_mem hhash] at hv hv'
    cases hv.symm.trans hv'
    rw [hpath, hpath']
  obtain ⟨scheme, rest, v, hscheme, hparse, _, hpath, _⟩ := parse_parts hhash h
  obtain ⟨scheme', rest', v', hscheme', hparse', _, hpath', _⟩ := parse_parts hhash h'
  cases hscheme.symm.trans hscheme'
  rw [hpath, hpath']
  have hread := (parseAfterQuery_ok hparse).2.2
  have hread' := (parseAfterQuery_ok hparse').2.2
  rw [splitQuery_fst] at hread hread'
  by_cases hquery : byte '?' ∈ rest
  · rw [before_append_of_mem hquery] at hread hread'
    split_ifs at hread hread'
    · rw [hread, hread']
    · exact Except.ok.inj (hread.symm.trans hread')
  · obtain ⟨hne, hhead, hsome⟩ :=
      ((hbase.resolve_left hhash) scheme rest hscheme).resolve_left hquery
    have hrootless : ∀ t, (before (byte '?') (rest ++ t)).head? ≠ some (byte '/') ∧
        scheme.map toLower ≠ [] := by
      intro t
      rw [before_append_of_not_mem hquery]
      cases rest with
      | nil => exact absurd rfl hne
      | cons c rest => exact ⟨hhead, by simpa using hsome⟩
    rw [if_pos (hrootless _)] at hread hread'
    rw [hread, hread']

end base

end LogCache.NetUrl
