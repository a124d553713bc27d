import LogCache.OctetCounting

namespace LogCache.Framing

open Envelopes OctetCounting Syslog

variable {α : Type} {internal : List UInt8 → Except String α} {limit : Limit} {p q : Parser}
variable {r rest frame msg : List UInt8} {err : FramingError} {started : Bool}
    {e : List (Emission α)}

section faults

inductive Fault (limit : Limit) (r : List UInt8) : FramingError → Prop
  | noLength {tok : Token} {s : Scanner} (h : (newScanner limit r).scan = (tok, s))
    (htyp : tok.typ ≠ .msgLen) :
      Fault limit r (.expecting tok .msgLen)
  | tooLong {lit : List UInt8} {s : Scanner} (h : (newScanner limit r).scan = (⟨.msgLen, lit⟩, s))
      (hlong : limit.maxMessageLength < s.msglen.toBitVec.toInt) :
      Fault limit r (.tooLong s.msglen limit.maxMessageLength)
  | noBlank {lit : List UInt8} {s s' : Scanner} {tok : Token}
    (h : (newScanner limit r).scan = (⟨.msgLen, lit⟩, s))
      (hsmall : s.msglen.toBitVec.toInt ≤ limit.maxMessageLength) (hnext : s.scan = (tok, s'))
        (htyp : tok.typ ≠ .ws) :
      Fault limit r (.expecting tok .ws)
  | noMessage {lit lit' : List UInt8} {s s' s'' : Scanner} {tok : Token}
      (h : (newScanner limit r).scan = (⟨.msgLen, lit⟩, s))
      (hsmall : s.msglen.toBitVec.toInt ≤ limit.maxMessageLength)
        (hnext : s.scan = (⟨.ws, lit'⟩, s'))
      (hlast : s'.scan = (tok, s'')) (htyp : tok.typ ≠ .syslogMsg) :
        Fault limit r (.expectingMsg tok s''.msglen)

theorem scan_of_scanner {s s' : Scanner} {tok : Token} (hfresh : p.stepback = false) (hs : p.s = s)
    (h : s.scan = (tok, s')) : p.scan.1 = tok ∧ p.scan.2.s = s' := by
  rw [Parser.scan_fresh hfresh, hs, h]
  exact ⟨rfl, rfl⟩

theorem turn_of_fault (hat : At limit r p) (hfault : Fault limit r err) :
    p.turn internal = ([.framing err], none) := by
  have hlimit := p.scan_limit.trans hat.hlimit
  have htoken := hat.token
  have hscanner := hat.scanner
  simp only [Parser.turn, hlimit]
  cases hfault with
  | noLength h htyp =>
      rw [h] at htoken
      rw [htoken, if_pos htyp]
  | tooLong h hlong =>
      rw [h] at htoken hscanner
      rw [htoken, hscanner, if_neg (not_not_intro rfl), if_pos hlong]
  | noBlank h hsmall hnext htyp =>
      rw [h] at htoken hscanner
      obtain ⟨htoken', -⟩ := scan_of_scanner p.scan_stepback hscanner hnext
      rw [htoken, hscanner, if_neg (not_not_intro rfl), if_neg (Int.not_lt.mpr hsmall), htoken',
        if_pos htyp]
  | noMessage h hsmall hnext hlast htyp =>
      rw [h] at htoken hscanner
      obtain ⟨htoken', hscanner'⟩ := scan_of_scanner p.scan_stepback hscanner hnext
      obtain ⟨htoken'', hscanner''⟩ := scan_of_scanner p.scan.2.scan_stepback hscanner' hlast
      rw [htoken, hscanner, if_neg (not_not_intro rfl), if_neg (Int.not_lt.mpr hsmall), htoken',
        if_neg (not_not_intro rfl), htoken'', hscanner'', if_pos htyp]

theorem fault_or_reads (hat : At limit r p) :
    (∃ err, Fault limit r err) ∨ ∃ lit q, Reads p lit q := by
  have hfirst : (newScanner limit r).scan = (p.scan.1, p.scan.2.s) :=
    Prod.ext hat.token.symm hat.scanner.symm
  have hnext : p.scan.2.s.scan = (p.scan.2.scan.1, p.scan.2.scan.2.s) := by
    rw [Parser.scan_fresh p.scan_stepback]
  have hlast : p.scan.2.scan.2.s.scan = (p.scan.2.scan.2.scan.1, p.scan.2.scan.2.scan.2.s) := by
    rw [Parser.scan_fresh p.scan.2.scan_stepback]
  have hshape : ∀ {tok : Token} {typ : TokenType}, tok.typ = typ → tok = ⟨typ, tok.lit⟩ :=
    fun h => h ▸ rfl
  by_cases hlen : p.scan.1.typ = .msgLen
  · rw [hshape hlen] at hfirst
    by_cases hsmall : p.scan.2.s.msglen.toBitVec.toInt ≤ limit.maxMessageLength
    · by_cases hws : p.scan.2.scan.1.typ = .ws
      · rw [hshape hws] at hnext
        by_cases hmsg : p.scan.2.scan.2.scan.1.typ = .syslogMsg
        · exact Or.inr ⟨_, _, hlen, hat.hlimit ▸ hsmall, hws, hmsg, rfl, rfl⟩
        · exact Or.inl ⟨_, .noMessage hfirst hsmall hnext hlast hmsg⟩
      · exact Or.inl ⟨_, .noBlank hfirst hsmall hnext hws⟩
    · exact Or.inl ⟨_, .tooLong hfirst (Int.not_le.mp hsmall)⟩
  · exact Or.inl ⟨_, .noLength hfirst hlen⟩

theorem exists_fault (h : ∀ frame msg rest, r = frame ++ rest → ¬ Frame limit frame msg) :
    ∃ err, Fault limit r err := by
  have hat : At limit r ⟨limit, newScanner limit r, ⟨.illegal, []⟩, false⟩ :=
    at_of_fresh rfl rfl rfl
  refine (fault_or_reads hat).resolve_right ?_
  rintro ⟨msg, q, hreads⟩
  obtain ⟨frame, rest, hr, hframe, -⟩ := frame_of_reads hat hreads
  exact h frame msg rest hr hframe

end faults

section streams

/-- No byte, or the byte that is taken for the end. -/
def AtEnd (r : List UInt8) : Prop := r.head?.getD eof = eof

/-- What is emitted of a stream, after a frame or at its start. A frame may be
the last, but a connection that ends before its first frame is at fault. -/
inductive Stream (limit : Limit) (internal : List UInt8 → Except String α) :
    Bool → List UInt8 → List (Emission α) → Prop
  | frame {started : Bool} {frame msg rest : List UInt8} {m : α} {e : List (Emission α)}
    (hframe : Frame limit frame msg)
      (hmsg : internal msg = .ok m) (hrest : Stream limit internal true rest e) :
      Stream limit internal started (frame ++ rest) (.message m :: e)
  | rejected {started : Bool} {frame msg : List UInt8} {err : String}
    (hframe : Frame limit frame msg)
      (hmsg : internal msg = .error err) (rest : List UInt8) :
      Stream limit internal started (frame ++ rest) [.rejected err]
  | ended {r : List UInt8} (hr : AtEnd r) : Stream limit internal true r []
  | fault {started : Bool} {r : List UInt8} {err : FramingError} (hr : started = true → ¬ AtEnd r)
      (hfault : Fault limit r err) : Stream limit internal started r [.framing err]

theorem scan_eof (size : Nat) (r : List UInt8) :
    (Scanner.scan ⟨r, size, 0, false⟩).1.typ = .eof ↔ AtEnd r := by
  cases r with
  | nil => exact ⟨fun _ => rfl, fun _ => rfl⟩
  | cons b r =>
      change _ ↔ b = eof
      rw [scan_cons]
      split_ifs with hdigit heof hws hlt
      · exact iff_of_false (by simp) (isDigit_of_isNonZeroDigit hdigit).2
      · exact iff_of_true rfl heof
      · exact iff_of_false (by simp) heof
      · exact hlt.2.2.elim
      · exact iff_of_false (by simp) heof

theorem frame_not_atEnd (hframe : Frame limit frame msg) (rest : List UInt8) :
    ¬ AtEnd (frame ++ rest) := by
  obtain ⟨hdigits, hgap, hhead, hvalue, hsmall⟩ := hframe
  exact (isDigit_of_isNonZeroDigit (hdigits _ List.mem_cons_self)).2

theorem Stream.of_atEnd (h : Stream limit internal true r e) (hend : AtEnd r) : e = [] := by
  cases h with
  | frame hframe hmsg hrest => exact absurd hend (frame_not_atEnd hframe _)
  | rejected hframe hmsg rest => exact absurd hend (frame_not_atEnd hframe _)
  | ended hr => rfl
  | fault hr hfault => exact absurd hend (hr rfl)

theorem run_of_end (h : p.turn internal = (e, none)) : p.run internal = e := by
  rw [Parser.run]
  split
  next emitted hturn => exact (Prod.mk.inj (hturn.symm.trans h)).1
  next emitted q hturn => cases (Prod.mk.inj (hturn.symm.trans h)).2

theorem run_of_turn (h : p.turn internal = (e, some q)) : p.run internal = e ++ q.run internal := by
  rw [Parser.run]
  split
  next emitted hturn => cases (Prod.mk.inj (hturn.symm.trans h)).2
  next emitted q' hturn =>
    obtain ⟨rfl, hq⟩ := Prod.mk.inj (hturn.symm.trans h)
    cases hq
    rfl

theorem run_of_stream (h : Stream limit internal started r e) (hat : At limit r p)
    (hstarted : started = true → ¬ AtEnd r) :
    p.run internal = e := by
  induction h generalizing p with
  | @frame _ frame msg rest m e hframe hmsg hrest ih =>
      obtain ⟨q, hreads, hq, hfresh⟩ := reads_of_frame hat hframe
      have hturn := @turn_of_reads α internal p q msg hreads
      rw [hmsg, hq.token] at hturn
      by_cases hend : AtEnd rest
      · rw [hrest.of_atEnd hend]
        exact run_of_end (hturn.trans (congrArg _ (if_pos ((scan_eof _ rest).mpr hend))))
      · rw [run_of_turn (hturn.trans (congrArg _ (if_neg (mt (scan_eof _ rest).mp hend))))]
        exact congrArg _ (ih (hq.unscan hfresh) fun _ => hend)
  | rejected hframe hmsg rest =>
      obtain ⟨q, hreads, -⟩ := reads_of_frame hat hframe
      apply run_of_end
      rw [turn_of_reads hreads, hmsg]
  | ended hr => exact absurd hr (hstarted rfl)
  | fault hr hfault => exact run_of_end (turn_of_fault hat hfault)

theorem parse_of_stream (h : Stream limit internal false r e) : parse limit internal r = e :=
  run_of_stream h (at_of_fresh rfl rfl rfl) fun h => absurd h Bool.false_ne_true

theorem frame_pos (h : Frame limit frame msg) : 0 < frame.length := by
  obtain ⟨hdigits, hgap, hhead, hvalue, hsmall⟩ := h
  simp

theorem exists_stream (limit : Limit) (internal : List UInt8 → Except String α) (started : Bool)
    (r : List UInt8) :
    ∃ e, Stream limit internal started r e := by
  induction hn : r.length using Nat.strongRecOn generalizing r started with
  | ind n ih =>
      by_cases hframe : ∃ frame msg rest, r = frame ++ rest ∧ Frame limit frame msg
      · obtain ⟨frame, msg, rest, rfl, hframe⟩ := hframe
        cases hmsg : internal msg with
        | error err => exact ⟨_, .rejected hframe hmsg rest⟩
        | ok m =>
            have hlt : rest.length < n := by
              have := frame_pos hframe
              rw [List.length_append] at hn
              omega
            obtain ⟨e, hrest⟩ := ih rest.length hlt true rest rfl
            exact ⟨_, .frame hframe hmsg hrest⟩
      · obtain ⟨err, hfault⟩ :=
          exists_fault fun frame msg rest hr h => hframe ⟨frame, msg, rest, hr, h⟩
        by_cases hend : started = true ∧ AtEnd r
        · obtain ⟨rfl, hend⟩ := hend
          exact ⟨_, .ended hend⟩
        · exact ⟨_, .fault (fun hstarted h => hend ⟨hstarted, h⟩) hfault⟩

theorem frames_parsed_iff (limit : Limit) (internal : List UInt8 → Except String α) (r : List UInt8)
    (e : List (Emission α)) :
    parse limit internal r = e ↔ Stream limit internal false r e := by
  refine ⟨fun h => ?_, parse_of_stream⟩
  obtain ⟨e', he'⟩ := exists_stream limit internal false r
  rw [← h, parse_of_stream he']
  exact he'

end streams

section cuts

theorem frame_unique {frame' msg' rest' : List UInt8} (h : Frame limit frame msg)
    (h' : Frame limit frame' msg') (htext : frame ++ rest = frame' ++ rest') : frame = frame' := by
  obtain @⟨b, digits, gap, _, hdigits, hgap, hhead, hvalue, hsmall⟩ := h
  obtain @⟨b', digits', gap', _, hdigits', hgap', hhead', hvalue', hsmall'⟩ := h'
  have hdrop := (List.forall_mem_cons.mp hdigits).2
  have hdrop' := (List.forall_mem_cons.mp hdigits').2
  have htail : digits ++ gap ++ ws :: (msg ++ rest) = digits' ++ gap' ++ ws :: (msg' ++ rest') := by
    simpa using (List.cons.inj htext).2
  have hsplit := (digits_append hdrop hgap (msg ++ rest)).symm.trans
    ((congrArg _ htail).trans (digits_append hdrop' hgap' (msg' ++ rest')))
  obtain ⟨rfl, hrest⟩ := Prod.mk.inj hsplit
  obtain rfl : b = b' := (List.cons.inj htext).1
  have hlength : msg.length = msg'.length := hvalue.symm.trans hvalue'
  obtain ⟨rfl, rfl⟩ := List.append_inj (List.cons.inj hrest).2 hlength
  exact List.append_cancel_right htext

theorem exists_fault_of_part {k : Nat} (h : Frame limit frame msg) (hk : k < frame.length) :
    ∃ err, Fault limit (frame.take k) err := by
  refine exists_fault fun frame' msg' rest hr h' => ?_
  have htext : frame ++ [] = frame' ++ (rest ++ frame.drop k) := by
    rw [← List.append_assoc, ← hr, List.take_append_drop, List.append_nil]
  have hlength := congrArg List.length hr
  rw [← frame_unique h h' htext, List.length_take, List.length_append] at hlength
  omega

theorem take_not_atEnd {k : Nat} (h : Frame limit frame msg) (hk : 0 < k) :
    ¬ AtEnd (frame.take k) := by
  obtain ⟨n, rfl⟩ : ∃ n, k = n + 1 := ⟨k - 1, by omega⟩
  obtain ⟨hdigits, hgap, hhead, hvalue, hsmall⟩ := h
  exact (isDigit_of_isNonZeroDigit (hdigits _ List.mem_cons_self)).2

structure Sent (α : Type) where
  frame : List UInt8
  bytes : List UInt8
  msg : α

def Sent.Valid (limit : Limit) (internal : List UInt8 → Except String α) (f : Sent α) : Prop :=
  Frame limit f.frame f.bytes ∧ internal f.bytes = .ok f.msg

def text (frames : List (Sent α)) : List UInt8 := frames.flatMap Sent.frame

/-- The first `k` bytes of the frames hold `n` whole frames, and the rest of
the bytes, if there are any, is not enough for another. -/
structure Whole (frames : List (Sent α)) (k n : Nat) : Prop where
  le : n ≤ frames.length
  whole : (text (frames.take n)).length ≤ k
  part : n < frames.length → k < (text (frames.take (n + 1))).length

def Clean (frames : List (Sent α)) (started : Bool) (k n : Nat) : Prop :=
  (started = true ∨ 0 < n) ∧ (k = (text (frames.take n)).length ∨ n = frames.length)

theorem length_text_cons (f : Sent α) (fs : List (Sent α)) :
    (text (f :: fs)).length = f.frame.length + (text fs).length := by
  rw [text, List.flatMap_cons, List.length_append, text]

theorem Whole.cons {f : Sent α} {fs : List (Sent α)} {k n : Nat}
    (h : Whole fs (k - f.frame.length) n) (hk : f.frame.length ≤ k) :
    Whole (f :: fs) k (n + 1) := by
  obtain ⟨hle, hwhole, hpart⟩ := h
  refine ⟨Nat.succ_le_succ hle, ?_, fun hlt => ?_⟩
  · rw [List.take_succ_cons, length_text_cons]
    omega
  · have := hpart (Nat.lt_of_succ_lt_succ hlt)
    rw [List.take_succ_cons, length_text_cons]
    omega

theorem whole_zero {f : Sent α} {k : Nat} (hk : k < f.frame.length) (fs : List (Sent α)) :
    Whole (f :: fs) k 0 := by
  refine ⟨Nat.zero_le _, Nat.zero_le _, fun _ => ?_⟩
  rw [List.take_succ_cons, length_text_cons]
  exact Nat.lt_of_lt_of_le hk (Nat.le_add_right _ _)

theorem clean_cons {f : Sent α} {k : Nat} (hk : f.frame.length ≤ k) (fs : List (Sent α))
    (started : Bool) (n : Nat) :
    Clean (f :: fs) started k (n + 1) ↔ Clean fs true (k - f.frame.length) n := by
  have hlength := length_text_cons f (fs.take n)
  simp only [Clean, List.take_succ_cons, List.length_cons]
  constructor
  · rintro ⟨-, h | h⟩
    · exact ⟨.inl trivial, .inl (by omega)⟩
    · exact ⟨.inl trivial, .inr (by omega)⟩
  · rintro ⟨-, h | h⟩
    · exact ⟨.inr n.succ_pos, .inl (by omega)⟩
    · exact ⟨.inr n.succ_pos, .inr (by omega)⟩

theorem clean_zero {f : Sent α} {fs : List (Sent α)} {k : Nat} : Clean (f :: fs) started k 0 ↔
    started = true ∧ k = 0 := by
  simp [Clean, text]

theorem stream_of_cut (frames : List (Sent α)) (hframes : ∀ f ∈ frames, f.Valid limit internal)
    (started : Bool) (k : Nat) :
    ∃ n final, Whole frames k n ∧
      Stream limit internal started ((text frames).take k)
        ((frames.take n).map (.message ·.msg) ++ final) ∧
      (Clean frames started k n ∧ final = [] ∨ ¬ Clean frames started k n ∧
        ∃ err, final = [.framing err]) := by
  induction frames generalizing started k with
  | nil =>
      have hfault : Fault limit [] (.expecting ⟨.eof, []⟩ .msgLen) := .noLength rfl (by simp)
      have hnil : (text ([] : List (Sent α))).take k = [] := List.take_nil
      have hwhole : Whole ([] : List (Sent α)) k 0 :=
        ⟨Nat.le_refl _, Nat.zero_le _, fun h => absurd h (Nat.lt_irrefl _)⟩
      rw [hnil]
      cases started with
      | true => exact ⟨0, [], hwhole, .ended rfl, .inl ⟨⟨.inl rfl, .inr rfl⟩, rfl⟩⟩
      | false =>
          refine ⟨0, _, hwhole, .fault (fun h => absurd h Bool.false_ne_true) hfault,
            .inr ⟨?_, _, rfl⟩⟩
          simp [Clean]
  | cons f fs ih =>
      obtain ⟨⟨hframe, hmsg⟩, hfs⟩ := List.forall_mem_cons.mp hframes
      have htext : text (f :: fs) = f.frame ++ text fs := List.flatMap_cons
      rw [htext]
      by_cases hk : f.frame.length ≤ k
      · obtain ⟨n, final, hwhole, hstream, hfinal⟩ := ih hfs true (k - f.frame.length)
        rw [List.take_append, List.take_of_length_le hk]
        refine ⟨n + 1, final, hwhole.cons hk, .frame hframe hmsg hstream, ?_⟩
        rw [clean_cons hk]
        exact hfinal
      · have hlt := Nat.not_le.mp hk
        rw [List.take_append_of_le_length (Nat.le_of_lt hlt)]
        by_cases hclean : started = true ∧ k = 0
        · refine ⟨0, [], whole_zero hlt fs, ?_, .inl ⟨clean_zero.mpr hclean, rfl⟩⟩
          obtain ⟨rfl, rfl⟩ := hclean
          exact .ended rfl
        · obtain ⟨err, hfault⟩ := exists_fault_of_part hframe hlt
          refine ⟨0, _, whole_zero hlt fs, .fault (fun hstarted => ?_) hfault,
            .inr ⟨mt clean_zero.mp hclean, err, rfl⟩⟩
          exact take_not_atEnd hframe (Nat.pos_of_ne_zero fun hzero => hclean ⟨hstarted, hzero⟩)

/-- A connection that is cut off after any number of bytes. -/
theorem cut_delivers (limit : Limit) (internal : List UInt8 → Except String α)
    (frames : List (Sent α)) (hframes : ∀ f ∈ frames, f.Valid limit internal) (k : Nat) :
    ∃ n final, Whole frames k n ∧
      parse limit internal ((text frames).take k) = (frames.take n).map (.message ·.msg) ++ final ∧
      (Clean frames false k n ∧ final = [] ∨ ¬ Clean frames false k n ∧
        ∃ err, final = [.framing err]) := by
  obtain ⟨n, final, hwhole, hstream, hfinal⟩ := stream_of_cut frames hframes false k
  exact ⟨n, final, hwhole, parse_of_stream hstream, hfinal⟩

def serverLimit : Limit := ⟨65 * 1024, by decide⟩

def field (text : List UInt8) : Option String × List UInt8 :=
  let (lit, rest) := text.span (· != ws)
  (if lit = bytesOf "-" then none else some (String.ofList (lit.map fun b => Char.ofNat b.toNat)),
    rest.drop 1)

/-- RFC 5424 for lines of priority 14 at the beginning of 1970 that have neither a
host nor a message id nor structured data. -/
def parseLine (text : List UInt8) : Except String SyslogMessage :=
  let head := bytesOf "<14>1 1970-01-01T00:00:00Z - "
  if text.take head.length = head then
    let (appname, text) := field (text.drop head.length)
    let (procID, text) := field text
    if text.take 4 = bytesOf "- - " then
      .ok ⟨some 14, 1, some 0, appname, procID, none, some (text.drop 4)⟩
    else .error "expecting a structured data section containing one or more elements"
  else .error "expecting a priority value within angle brackets"

def logLine : List UInt8 := bytesOf "<14>1 1970-01-01T00:00:00Z - app 1 - - hi"

def logMessage : SyslogMessage :=
  ⟨some 14, 1, some 0, some "app", some "1", none, some (bytesOf "hi")⟩

def logFrame : Sent SyslogMessage := ⟨bytesOf "41 " ++ logLine, logLine, logMessage⟩

theorem frame_of_length {line : List UInt8} (hhead : line.head? = some lt)
    (hlength : line.length = 41) : Frame serverLimit (bytesOf "41 " ++ line) line :=
  @Frame.mk serverLimit 52 [49] [] line
    (List.forall_mem_cons.mpr ⟨rfl, List.forall_mem_singleton.mpr rfl⟩) (.inl rfl) hhead
    hlength.symm (hlength ▸ by decide)

theorem logFrame_valid : logFrame.Valid serverLimit parseLine := ⟨frame_of_length rfl rfl, rfl⟩

/-- Two lines, cut off within the second. -/
theorem cut_delivers_first : (∀ f ∈ [logFrame, logFrame], f.Valid serverLimit parseLine) ∧
    ∃ err, parse serverLimit parseLine ((text [logFrame, logFrame]).take 60) =
      [.message logMessage, .framing err] := by
  have hframes : ∀ f ∈ [logFrame, logFrame], f.Valid serverLimit parseLine :=
    List.forall_mem_cons.mpr ⟨logFrame_valid, List.forall_mem_singleton.mpr logFrame_valid⟩
  obtain ⟨n, final, ⟨hn, hwhole, hnext⟩, hparse, hfinal⟩ :=
    cut_delivers serverLimit parseLine _ hframes 60
  obtain rfl : n = 1 := by
    obtain rfl | rfl | rfl : n = 0 ∨ n = 1 ∨ n = 2 := by
      rw [List.length_cons, List.length_singleton] at hn
      omega
    · exact absurd (hnext (by decide)) (by decide)
    · rfl
    · exact absurd hwhole (by decide)
  obtain ⟨⟨-, hclean⟩, -⟩ | ⟨-, err, rfl⟩ := hfinal
  · exact absurd hclean (by decide)
  · exact ⟨hframes, err, hparse⟩

end cuts

end LogCache.Framing
