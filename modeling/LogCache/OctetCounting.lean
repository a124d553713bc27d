import LogCache.Runes
import LogCache.Syslog

namespace LogCache.OctetCounting

open Runes Syslog

section scanner

def eof : UInt8 := 0

def ws : UInt8 := 32

def lt : UInt8 := 60

def isDigit (ch : UInt8) : Bool := decide (47 ≤ ch) && decide (ch ≤ 57)

def isNonZeroDigit (ch : UInt8) : Bool := decide (48 ≤ ch) && decide (ch ≤ 57)

inductive TokenType
  | illegal
  | eof
  | ws
  | msgLen
  | syslogMsg
  deriving DecidableEq

def TokenType.text : TokenType → String
  | .illegal => "ILLEGAL"
  | .eof => "EOF"
  | .ws => "WS"
  | .msgLen => "MSGLEN"
  | .syslogMsg => "SYSLOGMSG"

structure Token where
  typ : TokenType
  lit : List UInt8

def Token.text (t : Token) : List UInt8 :=
  match t.typ with
  | .ws | .eof => encode t.typ.text.toList
  | _ => encode (t.typ.text ++ "(").toList ++ t.lit ++ encode [')']

/-- The reader is what the connection still delivers before its end or its
first failed read, behind a buffer of `size` bytes. -/
structure Scanner where
  r : List UInt8
  size : Nat
  msglen : UInt64
  ready : Bool

namespace Scanner

def read (s : Scanner) : UInt8 × Scanner :=
  match s.r with
  | [] => (eof, s)
  | b :: r => (b, { s with r := r })

/-- `bufio.Reader.Peek`; an error comes with the bytes there are. -/
def peek (s : Scanner) (n : Int) : Except (List UInt8) (List UInt8) :=
  if n < 0 then .error []
  else if s.size < n.toNat then .error (s.r.take s.size)
  else if s.r.length < n.toNat then .error s.r
  else .ok (s.r.take n.toNat)

/-- The loop of `scanMsgLen`: the digits and what is left. The byte that is
taken for the end of the input is not given back. -/
def digits : List UInt8 → List UInt8 × List UInt8
  | [] => ([], [])
  | b :: r =>
      if b = eof then ([], r)
      else if !isDigit b then ([], b :: r)
      else (b :: (digits r).1, (digits r).2)

/-- What `strconv.ParseUint` returns beside its error, which is not looked at. -/
def parseMsgLen (buf : List UInt8) : UInt64 :=
  match parseDigits 0 (buf.map fun b => Char.ofNat b.toNat) with
  | .ok n => UInt64.ofNat n
  | .error .invalidSyntax => 0
  | .error .outOfRange => UInt64.ofNat (2 ^ 64 - 1)

def scanMsgLen (s : Scanner) : Token × Scanner :=
  let (b, s) := s.read
  let (buf, r) := digits s.r
  (⟨.msgLen, b :: buf⟩, { s with r := r, msglen := parseMsgLen (b :: buf) })

def scanSyslogMsg (s : Scanner) : Token × Scanner :=
  let n := s.msglen.toBitVec.toInt
  match s.peek n with
  | .error b => (⟨.eof, b⟩, s)
  | .ok b => (⟨.syslogMsg, b⟩, { s with r := s.r.drop n.toNat, msglen := 0, ready := false })

/-- Where the byte is unread the scan goes on in `s` itself. -/
def scan (s : Scanner) : Token × Scanner :=
  let (b, s') := s.read
  if isNonZeroDigit b then scanMsgLen { s with ready := false }
  else if b = eof then (⟨.eof, []⟩, { s' with ready := false })
  else if b = ws then (⟨.ws, [ws]⟩, { s' with ready := true })
  else if b = lt ∧ 0 < s'.msglen ∧ s'.ready = true then s.scanSyslogMsg
  else (⟨.illegal, [b]⟩, s')

end Scanner

end scanner

section parser

/-- The limit, and that the size of the buffer is computed from it without an
overflow. -/
structure Limit where
  maxMessageLength : Int
  small : maxMessageLength + 20 < 2 ^ 63

def newScanner (limit : Limit) (r : List UInt8) : Scanner :=
  ⟨r, if (limit.maxMessageLength + 20).toNat < 16 then 16
    else (limit.maxMessageLength + 20).toNat, 0, false⟩

structure Parser where
  limit : Limit
  s : Scanner
  last : Token
  stepback : Bool

namespace Parser

def scan (p : Parser) : Token × Parser :=
  if p.stepback then (p.last, { p with stepback := false })
  else
    let (tok, s) := p.s.scan
    (tok, { p with s := s, last := tok })

def unscan (p : Parser) : Parser := { p with stepback := true }

end Parser

inductive FramingError
  | expecting (tok : Token) (typ : TokenType)
  | tooLong (msglen : UInt64) (maxMessageLength : Int)
  | expectingMsg (tok : Token) (msglen : UInt64)

def FramingError.text : FramingError → List UInt8
  | .expecting tok typ =>
      encode "found ".toList ++ tok.text ++ encode (", expecting a " ++ typ.text).toList
  | .tooLong msglen maxMessageLength =>
      encode ("message too long to parse. was size " ++ toString msglen.toNat ++ ", max length " ++
        toString maxMessageLength).toList
  | .expectingMsg tok msglen =>
      encode "found ".toList ++ tok.text ++ encode " after \"".toList ++ tok.lit ++
        encode ("\", expecting a " ++ TokenType.syslogMsg.text ++ " containing " ++
          toString msglen.toNat ++
          " octets").toList

/-- What the listener is handed: a message, the error of the message's own
parser, or an error of the framing. -/
inductive Emission (α : Type)
  | message (msg : α)
  | rejected (err : String)
  | framing (err : FramingError)

variable {α : Type} (internal : List UInt8 → Except String α)

/-- One turn of the loop of `run`, without the best-effort mode: what it emits,
and the parser unless the loop ends. -/
def Parser.turn (p : Parser) : List (Emission α) × Option Parser :=
  let (tok, p) := p.scan
  if tok.typ ≠ .msgLen then ([.framing (.expecting tok .msgLen)], none)
  else if p.limit.maxMessageLength < p.s.msglen.toBitVec.toInt then
    ([.framing (.tooLong p.s.msglen p.limit.maxMessageLength)], none)
  else
    let (tok, p) := p.scan
    if tok.typ ≠ .ws then ([.framing (.expecting tok .ws)], none)
    else
      let (tok, p) := p.scan
      if tok.typ ≠ .syslogMsg then ([.framing (.expectingMsg tok p.s.msglen)], none)
      else
        match internal tok.lit with
        | .error err => ([.rejected err], none)
        | .ok msg =>
            let (tok, p) := p.scan
            if tok.typ = .eof then ([.message msg], none) else ([.message msg], some p.unscan)

end parser

section scanning

variable {s s' : Scanner} {tok : Token}

theorem scan_cons (b : UInt8) (r : List UInt8) (size : Nat) (msglen : UInt64) (ready : Bool) :
    Scanner.scan ⟨b :: r, size, msglen, ready⟩ =
      if isNonZeroDigit b then
        (⟨.msgLen, b :: (Scanner.digits r).1⟩,
          ⟨(Scanner.digits r).2, size, Scanner.parseMsgLen (b :: (Scanner.digits r).1), false⟩)
      else if b = eof then (⟨.eof, []⟩, ⟨r, size, msglen, false⟩)
      else if b = ws then (⟨.ws, [ws]⟩, ⟨r, size, msglen, true⟩)
      else if b = lt ∧ 0 < msglen ∧ ready = true
        then Scanner.scanSyslogMsg ⟨b :: r, size, msglen, ready⟩
      else (⟨.illegal, [b]⟩, ⟨r, size, msglen, ready⟩) := rfl

/-- What a scan can do. A message that is not all there gives the token of the
end of the input. -/
inductive Scanned (s : Scanner) : Token → Scanner → Prop
  | msgLen {b : UInt8} {r : List UInt8} (hr : s.r = b :: r) (hb : isNonZeroDigit b = true) :
      Scanned s ⟨.msgLen, b :: (Scanner.digits r).1⟩
        ⟨(Scanner.digits r).2, s.size, Scanner.parseMsgLen (b :: (Scanner.digits r).1), false⟩
  | eof (hr : s.r = [] ∨ s.r.head? = some eof) :
    Scanned s ⟨.eof, []⟩ ⟨s.r.tail, s.size, s.msglen, false⟩
  | ws {r : List UInt8} (hr : s.r = ws :: r) : Scanned s ⟨.ws, [ws]⟩ ⟨r, s.size, s.msglen, true⟩
  | short {b : List UInt8} (hready : s.ready = true) : Scanned s ⟨.eof, b⟩ s
  | syslogMsg {n : Nat} (hr : s.r.head? = some lt) (hn : s.msglen.toBitVec.toInt = n) (hpos : 0 < n)
      (hle : n ≤ s.r.length) : Scanned s ⟨.syslogMsg, s.r.take n⟩ ⟨s.r.drop n, s.size, 0, false⟩
  | illegal {b : UInt8} {r : List UInt8} (hr : s.r = b :: r) (hb : b ≠ OctetCounting.eof) :
      Scanned s ⟨.illegal, [b]⟩ { s with r := r }

theorem toInt_pos {n : UInt64} (hpos : 0 < n) (hneg : ¬ n.toBitVec.toInt < 0) :
    0 < n.toBitVec.toInt := by
  have hnat : 0 < n.toBitVec.toNat := hpos
  rw [BitVec.toInt_eq_toNat_cond] at hneg ⊢
  split_ifs at hneg ⊢ <;> omega

theorem scanSyslogMsg_cases (hr : s.r.head? = some lt) (hpos : 0 < s.msglen)
    (hready : s.ready = true) :
    Scanned s s.scanSyslogMsg.1 s.scanSyslogMsg.2 := by
  simp only [Scanner.scanSyslogMsg, Scanner.peek]
  by_cases hneg : s.msglen.toBitVec.toInt < 0
  · rw [if_pos hneg]
    exact .short hready
  · rw [if_neg hneg]
    split_ifs with hsize hlength
    · exact .short hready
    · exact .short hready
    · have hn := Int.toNat_of_nonneg (Int.not_lt.mp hneg)
      refine .syslogMsg hr hn.symm ?_ (Nat.not_lt.mp hlength)
      exact Int.pos_iff_toNat_pos.mp (toInt_pos hpos hneg)

theorem scan_cases (s : Scanner) : Scanned s s.scan.1 s.scan.2 := by
  obtain ⟨_ | ⟨b, r⟩, size, msglen, ready⟩ := s
  · exact .eof (.inl rfl)
  · rw [scan_cons]
    split_ifs with hdigit heof hws hlt
    · exact .msgLen rfl hdigit
    · exact .eof (.inr (congrArg some heof))
    · exact .ws (congrArg (· :: r) hws)
    · exact scanSyslogMsg_cases (congrArg some hlt.1) hlt.2.1 hlt.2.2
    · exact .illegal rfl heof

theorem length_digits (r : List UInt8) : (Scanner.digits r).2.length ≤ r.length := by
  induction r with
  | nil => exact Nat.le_refl _
  | cons b r ih =>
      rw [Scanner.digits]
      split_ifs
      · exact Nat.le_succ _
      · exact Nat.le_refl _
      · exact Nat.le_succ_of_le ih

theorem Scanned.length_le (h : Scanned s tok s') : s'.r.length ≤ s.r.length := by
  cases h with
  | @msgLen b r hr hb =>
      rw [hr]
      exact Nat.le_succ_of_le (length_digits r)
  | eof hr => exact (List.length_tail ▸ Nat.sub_le _ _ : s.r.tail.length ≤ s.r.length)
  | ws hr => simp [hr]
  | short hready => exact Nat.le_refl _
  | syslogMsg hr hn hpos hle => simp
  | illegal hr hb => simp [hr]

theorem Scanned.of_msgLen (h : Scanned s tok s') (htyp : tok.typ = .msgLen) :
    ∃ b r, s.r = b :: r ∧ isNonZeroDigit b = true ∧ s' = ⟨(Scanner.digits r).2, s.size,
      Scanner.parseMsgLen (b :: (Scanner.digits r).1), false⟩ := by
  cases h with
  | msgLen hr hb => exact ⟨_, _, hr, hb, rfl⟩
  | eof | ws | short | syslogMsg | illegal => cases htyp

theorem Scanned.of_ws (h : Scanned s tok s') (htyp : tok.typ = .ws) :
    ∃ r, s.r = OctetCounting.ws :: r ∧ s' = ⟨r, s.size, s.msglen, true⟩ := by
  cases h with
  | ws hr => exact ⟨_, hr, rfl⟩
  | msgLen | eof | short | syslogMsg | illegal => cases htyp

theorem Scanned.of_syslogMsg (h : Scanned s tok s') (htyp : tok.typ = .syslogMsg) :
    ∃ n : Nat, s.r.head? = some lt ∧ s.msglen.toBitVec.toInt = n ∧ 0 < n ∧ n ≤ s.r.length ∧
      tok.lit = s.r.take n ∧
      s' = ⟨s.r.drop n, s.size, 0, false⟩ := by
  cases h with
  | syslogMsg hr hn hpos hle => exact ⟨_, hr, hn, hpos, hle, rfl, rfl⟩
  | msgLen | eof | ws | short | illegal => cases htyp

theorem Scanned.length_lt (h : Scanned s tok s') (htyp : tok.typ = .syslogMsg) :
    s'.r.length < s.r.length := by
  obtain ⟨n, -, -, hpos, hle, -, rfl⟩ := h.of_syslogMsg htyp
  rw [List.length_drop]
  omega

end scanning

section turns

variable {α : Type} {internal : List UInt8 → Except String α} {p q : Parser} {lit : List UInt8}

theorem Parser.scan_fresh (h : p.stepback = false) :
    p.scan = (p.s.scan.1, { p with s := p.s.scan.2, last := p.s.scan.1 }) := by
  rw [Parser.scan, h]
  rfl

theorem Parser.scan_stepback (p : Parser) : p.scan.2.stepback = false := by
  rw [Parser.scan]
  split_ifs with h
  · rfl
  · exact Bool.eq_false_of_not_eq_true h

theorem Parser.scan_limit (p : Parser) : p.scan.2.limit = p.limit := by
  rw [Parser.scan]
  split_ifs <;> rfl

theorem Parser.scan_length (p : Parser) : p.scan.2.s.r.length ≤ p.s.r.length := by
  rw [Parser.scan]
  split_ifs with h
  · exact Nat.le_refl _
  · exact (scan_cases p.s).length_le

structure Reads (p : Parser) (lit : List UInt8) (q : Parser) : Prop where
  msgLen : p.scan.1.typ = .msgLen
  small : p.scan.2.s.msglen.toBitVec.toInt ≤ p.limit.maxMessageLength
  ws : p.scan.2.scan.1.typ = .ws
  syslogMsg : p.scan.2.scan.2.scan.1.typ = .syslogMsg
  lit : p.scan.2.scan.2.scan.1.lit = lit
  rest : p.scan.2.scan.2.scan.2 = q

theorem turn_of_reads (h : Reads p lit q) :
    p.turn internal =
      match internal lit with
      | .error err => ([.rejected err], none)
      | .ok msg =>
          ([.message msg], if q.scan.1.typ = .eof then none else some q.scan.2.unscan) := by
  obtain ⟨hlen, hsmall, hws, hmsg, rfl, rfl⟩ := h
  have hlimit : ¬ p.scan.2.limit.maxMessageLength < p.scan.2.s.msglen.toBitVec.toInt := by
    rw [p.scan_limit]
    exact Int.not_lt.mpr hsmall
  simp only [Parser.turn, hlen, hws, hmsg, hlimit, ne_eq, not_true_eq_false, if_false]
  cases internal p.scan.2.scan.2.scan.1.lit with
  | error err => rfl
  | ok msg =>
      dsimp only
      split_ifs <;> rfl

theorem turn_of_not_reads (h : ∀ lit q, ¬ Reads p lit q) :
    ∃ err, p.turn internal = ([.framing err], none) := by
  simp only [Parser.turn]
  by_cases hlen : p.scan.1.typ = .msgLen
  · rw [if_neg (not_not_intro hlen)]
    by_cases hlimit : p.scan.2.limit.maxMessageLength < p.scan.2.s.msglen.toBitVec.toInt
    · exact ⟨_, if_pos hlimit⟩
    · rw [if_neg hlimit]
      by_cases hws : p.scan.2.scan.1.typ = .ws
      · rw [if_neg (not_not_intro hws)]
        refine ⟨_, if_pos fun hmsg => ?_⟩
        rw [p.scan_limit] at hlimit
        exact h _ _ ⟨hlen, Int.not_lt.mp hlimit, hws, hmsg, rfl, rfl⟩
      · exact ⟨_, if_pos hws⟩
  · exact ⟨_, if_pos hlen⟩

theorem Reads.length_lt (h : Reads p lit q) : q.s.r.length < p.s.r.length := by
  have hfresh := p.scan.2.scan_stepback
  have hmsg := h.syslogMsg
  rw [← h.rest, Parser.scan_fresh hfresh]
  rw [Parser.scan_fresh hfresh] at hmsg
  calc p.scan.2.scan.2.s.scan.2.r.length < p.scan.2.scan.2.s.r.length := (scan_cases
    _).length_lt hmsg
    _ ≤ p.scan.2.s.r.length := Parser.scan_length _
    _ ≤ p.s.r.length := Parser.scan_length _

theorem turn_length {emitted : List (Emission α)} (h : p.turn internal = (emitted, some q)) :
    q.s.r.length < p.s.r.length := by
  by_cases hreads : ∃ lit q, Reads p lit q
  · obtain ⟨lit, q', hreads⟩ := hreads
    have hlt := hreads.length_lt
    rw [turn_of_reads hreads] at h
    cases hlit : internal lit with
    | error err =>
        rw [hlit] at h
        cases h
    | ok msg =>
        rw [hlit] at h
        dsimp only at h
        split_ifs at h
        · cases h
        · cases h
          exact Nat.lt_of_le_of_lt q'.scan_length hlt
  · obtain ⟨err, herr⟩ :=
      @turn_of_not_reads α internal p fun lit q hreads' => hreads ⟨lit, q, hreads'⟩
    rw [herr] at h
    cases h

end turns

def Parser.run {α : Type} (internal : List UInt8 → Except String α) (p : Parser) :
    List (Emission α) :=
  match _h : p.turn internal with
  | (emitted, none) => emitted
  | (emitted, some q) => emitted ++ q.run internal
termination_by p.s.r.length
decreasing_by exact turn_length _h

def parse {α : Type} (limit : Limit) (internal : List UInt8 → Except String α) (r : List UInt8) :
    List (Emission α) :=
  Parser.run internal ⟨limit, newScanner limit r, ⟨.illegal, []⟩, false⟩

section lengths

def valueFrom (n : Nat) (digits : List UInt8) : Nat :=
  digits.foldl (fun n b => 10 * n + (b.toNat - 48)) n

def value (digits : List UInt8) : Nat := valueFrom 0 digits

theorem toNat_char (b : UInt8) : (Char.ofNat b.toNat).toNat = b.toNat := by
  have hlt := b.toNat_lt
  have hvalid : b.toNat.isValidChar := Or.inl (by omega)
  rw [Char.ofNat, dif_pos hvalid]
  rfl

theorem isDigit_char (b : UInt8) : (Char.ofNat b.toNat).isDigit = isNonZeroDigit b := by
  have hchar := toNat_char b
  rw [Bool.eq_iff_iff]
  simp only [Char.isDigit, isNonZeroDigit, Bool.and_eq_true, decide_eq_true_iff,
    UInt32.le_iff_toNat_le, UInt8.le_iff_toNat_le, ge_iff_le]
  change 48 ≤ (Char.ofNat b.toNat).toNat ∧ (Char.ofNat b.toNat).toNat ≤ 57 ↔ _
  rw [hchar]
  rfl

theorem le_valueFrom (n : Nat) (digits : List UInt8) : n ≤ valueFrom n digits := by
  induction digits generalizing n with
  | nil => exact Nat.le_refl n
  | cons b digits ih =>
      have hle := ih (10 * n + (b.toNat - 48))
      change n ≤ valueFrom (10 * n + (b.toNat - 48)) digits
      omega

theorem parseDigits_bytes {n m : Nat} (buf : List UInt8) (hn : n < 2 ^ 64) :
    parseDigits n (buf.map fun b => Char.ofNat b.toNat) = .ok m ↔
      (∀ b ∈ buf, isNonZeroDigit b = true) ∧ valueFrom n buf = m ∧ m < 2 ^ 64 := by
  induction buf generalizing n with
  | nil =>
      constructor
      · intro h
        cases h
        exact ⟨fun b hb => absurd hb List.not_mem_nil, rfl, hn⟩
      · rintro ⟨-, rfl, -⟩
        rfl
  | cons b buf ih =>
      have hvalue : valueFrom n (b :: buf) = valueFrom (10 * n + (b.toNat - 48)) buf := rfl
      have hle := le_valueFrom (10 * n + (b.toNat - 48)) buf
      rw [List.map_cons, parseDigits, isDigit_char, toNat_char, hvalue, List.forall_mem_cons]
      change (if isNonZeroDigit b = true then
        if 10 * n + (b.toNat - 48) < 2 ^ 64 then parseDigits (10 * n + (b.toNat - 48)) _ else _
        else _) = _ ↔ _
      split_ifs with hdigit hlt
      · rw [ih hlt, hdigit]
        simp
      · constructor
        · intro h
          cases h
        · rintro ⟨-, rfl, hm⟩
          omega
      · simp [hdigit]

theorem toInt_ofNat {n : Nat} (hn : n < 2 ^ 64) :
    (UInt64.ofNat n).toBitVec.toInt = if 2 * n < 2 ^ 64 then (n : Int) else (n : Int) - 2 ^ 64 := by
  have htoNat : (UInt64.ofNat n).toBitVec.toNat = n := Nat.mod_eq_of_lt hn
  rw [BitVec.toInt_eq_toNat_cond, htoNat]
  rfl

/-- A length that is not a number is zero and one that is too large is minus
one, which is why neither passes for a length. -/
theorem parseMsgLen_eq {n : Nat} (hpos : 0 < n) (buf : List UInt8) :
    (Scanner.parseMsgLen buf).toBitVec.toInt = n ↔
      (∀ b ∈ buf, isNonZeroDigit b = true) ∧ value buf = n ∧ n < 2 ^ 63 := by
  have hdigits := fun m => parseDigits_bytes (m := m) buf (by decide : 0 < 2 ^ 64)
  rw [Scanner.parseMsgLen]
  cases hparse : parseDigits 0 (buf.map fun b => Char.ofNat b.toNat) with
  | ok m =>
      obtain ⟨hall, hvalue, hm⟩ := (hdigits m).mp hparse
      change (UInt64.ofNat m).toBitVec.toInt = n ↔ _
      rw [toInt_ofNat hm, value, hvalue]
      constructor
      · intro h
        split_ifs at h <;> exact ⟨hall, by omega, by omega⟩
      · rintro ⟨-, rfl, hn⟩
        exact if_pos (by omega)
  | error err =>
      have hnot : ¬ ((∀ b ∈ buf, isNonZeroDigit b = true) ∧ value buf = n ∧ n < 2 ^ 63) := by
        rintro ⟨hall, hvalue, hn⟩
        rw [(hdigits n).mpr ⟨hall, hvalue, by omega⟩] at hparse
        cases hparse
      refine iff_of_false ?_ hnot
      cases err with
      | invalidSyntax => exact fun h => absurd h (by change (0 : Int) ≠ n; omega)
      | outOfRange => exact fun h => absurd h (by change (-1 : Int) ≠ n; omega)

end lengths

section frames

variable {limit : Limit} {frame msg rest r : List UInt8} {last : Token}

/-- The digits of a length, perhaps a zero byte, a blank, and a message of that
length that opens with an angle bracket. -/
inductive Frame (limit : Limit) : List UInt8 → List UInt8 → Prop
  | mk {b : UInt8} {digits gap msg : List UInt8}
    (hdigits : ∀ d ∈ b :: digits, isNonZeroDigit d = true)
      (hgap : gap = [] ∨ gap = [eof]) (hhead : msg.head? = some lt)
        (hvalue : value (b :: digits) = msg.length)
      (hsmall : msg.length ≤ limit.maxMessageLength) :
        Frame limit (b :: digits ++ gap ++ ws :: msg) msg

theorem isDigit_of_isNonZeroDigit {b : UInt8} (h : isNonZeroDigit b = true) :
    isDigit b = true ∧ b ≠ eof := by
  simp only [isNonZeroDigit, isDigit, Bool.and_eq_true, decide_eq_true_iff,
    UInt8.le_iff_toNat_le] at h ⊢
  change 48 ≤ b.toNat ∧ b.toNat ≤ 57 at h
  change (47 ≤ b.toNat ∧ b.toNat ≤ 57) ∧ _
  refine ⟨by omega, ?_⟩
  rintro rfl
  exact absurd h.1 (by decide)

theorem digits_append {digits gap : List UInt8} (hdigits : ∀ d ∈ digits, isNonZeroDigit d = true)
    (hgap : gap = [] ∨ gap = [eof]) (r : List UInt8) :
    Scanner.digits (digits ++ gap ++ ws :: r) = (digits, ws :: r) := by
  induction digits with
  | nil =>
      rcases hgap with rfl | rfl
      · rfl
      · rfl
  | cons d digits ih =>
      obtain ⟨hd, hdigits⟩ := List.forall_mem_cons.mp hdigits
      obtain ⟨hdigit, hne⟩ := isDigit_of_isNonZeroDigit hd
      simp only [List.cons_append, Scanner.digits, if_neg hne, hdigit, ih hdigits, Bool.not_true,
        Bool.false_eq_true, if_false]

theorem digits_split (r : List UInt8) :
    ∃ gap, (gap = [] ∨ gap = [eof]) ∧ r = (Scanner.digits r).1 ++ gap ++ (Scanner.digits r).2 := by
  induction r with
  | nil => exact ⟨[], Or.inl rfl, rfl⟩
  | cons b r ih =>
      rw [Scanner.digits]
      split_ifs with heof hdigit
      · exact ⟨[eof], Or.inr rfl, by rw [heof]; rfl⟩
      · exact ⟨[], Or.inl rfl, rfl⟩
      · obtain ⟨gap, hgap, hr⟩ := ih
        exact ⟨gap, hgap, congrArg (b :: ·) hr⟩

theorem scan_ready {size : Nat} {msglen : UInt64} (hhead : msg.head? = some lt)
    (hlen : msglen.toBitVec.toInt = msg.length) (hsize : msg.length ≤ size) (rest : List UInt8) :
    Scanner.scan ⟨msg ++ rest, size, msglen, true⟩ =
      (⟨.syslogMsg, msg⟩, ⟨rest, size, 0, false⟩) := by
  obtain ⟨b, msg', rfl⟩ : ∃ b msg', msg = b :: msg' :=
    List.exists_cons_of_ne_nil (fun h => by rw [h] at hhead; cases hhead)
  obtain rfl : b = lt := Option.some.inj hhead
  have hpos : 0 < msglen := by
    refine UInt64.pos_iff_ne_zero.mpr fun hzero => ?_
    rw [hzero] at hlen
    cases hlen
  rw [List.cons_append, scan_cons, if_neg (by decide), if_neg (by decide), if_neg (by decide),
    if_pos ⟨rfl, hpos, rfl⟩, ← List.cons_append]
  simp only [Scanner.scanSyslogMsg, Scanner.peek, hlen, Int.toNat_natCast, List.length_append]
  rw [if_neg (by omega), if_neg (by omega), if_neg (by omega)]
  simp

theorem size_newScanner (limit : Limit) (r : List UInt8) :
    limit.maxMessageLength ≤ (newScanner limit r).size := by
  simp only [newScanner]
  split_ifs <;> omega

/-- The parser goes on as a scanner between two frames does, whether or not it
has already scanned a token of what is left. -/
structure At (limit : Limit) (r : List UInt8) (p : Parser) : Prop where
  hlimit : p.limit = limit
  token : p.scan.1 = (newScanner limit r).scan.1
  scanner : p.scan.2.s = (newScanner limit r).scan.2

theorem at_of_fresh {p : Parser} (hlimit : p.limit = limit) (hfresh : p.stepback = false)
    (hs : p.s = newScanner limit r) : At limit r p := by
  refine ⟨hlimit, ?_, ?_⟩
  · rw [Parser.scan_fresh hfresh, hs]
  · rw [Parser.scan_fresh hfresh, hs]

theorem At.unscan {p : Parser} (h : At limit r p) (hfresh : p.stepback = false) :
    At limit r p.scan.2.unscan := by
  refine ⟨p.scan_limit.trans h.hlimit, ?_, h.scanner⟩
  rw [← h.token, Parser.scan_fresh hfresh]
  rfl

theorem reads_of_frame {p : Parser} (h : At limit (frame ++ rest) p)
    (hframe : Frame limit frame msg) :
    ∃ q, Reads p msg q ∧ At limit rest q ∧ q.stepback = false := by
  obtain @⟨b, digits, gap, _, hdigits, hgap, hhead, hvalue, hsmall⟩ := hframe
  have hlt : msg.length < 2 ^ 63 := by
    have := limit.small
    omega
  have hpos : 0 < msg.length :=
    List.length_pos_iff.mpr fun hnil => by rw [hnil] at hhead; cases hhead
  have hlen := (parseMsgLen_eq hpos (b :: digits)).mpr ⟨hdigits, hvalue, hlt⟩
  have hsize : msg.length ≤ (newScanner limit []).size := by
    have := size_newScanner limit []
    omega
  obtain ⟨hb, hdigits⟩ := List.forall_mem_cons.mp hdigits
  have hfirst : (newScanner limit (b :: digits ++ gap ++ ws :: msg ++ rest)).scan =
      (⟨.msgLen, b :: digits⟩, ⟨ws :: (msg ++ rest), (newScanner limit []).size,
        Scanner.parseMsgLen (b :: digits), false⟩) := by
    have hcons : b :: digits ++ gap ++ ws :: msg ++ rest = b ::
        (digits ++ gap ++ ws :: (msg ++ rest)) := by simp
    rw [hcons]
    change Scanner.scan ⟨b :: _, _, 0, false⟩ = _
    rw [scan_cons, if_pos hb, digits_append hdigits hgap]
    rfl
  have hscan := h.scanner
  have htoken := h.token
  rw [hfirst] at hscan htoken
  have hsecond : p.scan.2.scan = (⟨.ws, [ws]⟩, { p.scan.2 with
      s := ⟨msg ++ rest, (newScanner limit []).size, Scanner.parseMsgLen (b :: digits), true⟩,
        last := ⟨.ws, [ws]⟩ }) := by
    rw [Parser.scan_fresh p.scan_stepback, hscan]
    rfl
  have hthird : p.scan.2.scan.2.scan = (⟨.syslogMsg, msg⟩, { p.scan.2.scan.2 with
      s := newScanner limit rest, last := ⟨.syslogMsg, msg⟩ }) := by
    rw [Parser.scan_fresh p.scan.2.scan_stepback, hsecond]
    dsimp only
    rw [scan_ready hhead hlen hsize]
    rfl
  refine ⟨p.scan.2.scan.2.scan.2,
    ⟨by rw [htoken], ?_, by rw [hsecond], by rw [hthird], by rw [hthird], rfl⟩, ?_,
    Parser.scan_stepback _⟩
  · rw [hscan, h.hlimit]
    exact hlen.trans_le hsmall
  · refine at_of_fresh ?_ (Parser.scan_stepback _) (by rw [hthird])
    rw [Parser.scan_limit, Parser.scan_limit, Parser.scan_limit, h.hlimit]

theorem Parser.scan_scanned {p : Parser} (h : p.stepback = false) :
    Scanned p.s p.scan.1 p.scan.2.s := by
  rw [Parser.scan_fresh h]
  exact scan_cases p.s

theorem frame_of_reads {p q : Parser} (h : At limit r p) (hreads : Reads p msg q) :
    ∃ frame rest, r = frame ++ rest ∧ Frame limit frame msg ∧ At limit rest q ∧
      q.stepback = false := by
  obtain ⟨hlen, hsmall, hws, hmsg, rfl, rfl⟩ := hreads
  have hfirst := scan_cases (newScanner limit r)
  rw [← h.token, ← h.scanner] at hfirst
  obtain ⟨b, r₁, hr, hb, hs₁⟩ := hfirst.of_msgLen hlen
  obtain ⟨r₂, hr₁, hs₂⟩ := (Parser.scan_scanned p.scan_stepback).of_ws hws
  obtain ⟨n, hhead, hn, hpos, hle, hlit, hs₃⟩ :=
    (Parser.scan_scanned p.scan.2.scan_stepback).of_syslogMsg hmsg
  rw [hs₁] at hr₁ hs₂ hsmall
  rw [hs₂] at hhead hn hle hlit hs₃
  dsimp only at hr₁ hn hle hhead hlit hs₃ hsmall
  obtain ⟨gap, hgap, hsplit⟩ := digits_split r₁
  obtain ⟨hdigits, hvalue, -⟩ := (parseMsgLen_eq hpos _).mp hn
  have hlength : (r₂.take n).length = n := List.length_take_of_le hle
  rw [hr₁] at hsplit
  have htext : r = (b :: (Scanner.digits r₁).1 ++ gap ++ ws :: r₂.take n) ++ r₂.drop n := by
    have hcons : b :: (Scanner.digits r₁).1 ++ gap ++ ws :: r₂.take n ++ r₂.drop n =
        b :: ((Scanner.digits r₁).1 ++ gap ++ ws :: r₂) := by simp
    rw [hcons, ← hsplit]
    exact hr
  refine ⟨_, _, htext, ?_, at_of_fresh ?_ (Parser.scan_stepback _) hs₃, Parser.scan_stepback _⟩
  · rw [hlit]
    refine .mk hdigits hgap ?_ (hvalue.trans hlength.symm) ?_
    · rw [List.head?_take, if_neg (Nat.ne_of_gt hpos)]
      exact hhead
    · rw [hlength, ← hn, ← h.hlimit]
      exact hsmall
  · rw [Parser.scan_limit, Parser.scan_limit, Parser.scan_limit, h.hlimit]

end frames

end LogCache.OctetCounting
