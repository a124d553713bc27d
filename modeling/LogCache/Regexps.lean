import Mathlib.Data.List.Basic

namespace LogCache.Regexps

variable {α β : Type}

inductive Regexp (α : Type)
  | one (p : α → Bool)
  | beginText
  | concat (r s : Regexp α)
  | alternate (r s : Regexp α)
  | lazyPlus (r : Regexp α)

/-- The ends of up to `n` turns, after fewer turns first. A turn that takes
nothing is the last. -/
def repeatLazy (turn : Nat → List Nat) : Nat → Nat → List Nat
  | 0, _ => []
  | n + 1, pos =>
      (turn pos).flatMap fun stop => stop :: if stop = pos then [] else repeatLazy turn n stop

/-- Where the matches that begin at `pos` end, in the order in which
backtracking comes to them. -/
def ends (text : List α) : Regexp α → Nat → List Nat
  | .one p, pos => if text[pos]?.any p then [pos + 1] else []
  | .beginText, pos => if pos = 0 then [pos] else []
  | .concat r s, pos => (ends text r pos).flatMap (ends text s)
  | .alternate r s, pos => ends text r pos ++ ends text s pos
  | .lazyPlus r, pos => repeatLazy (ends text r) (text.length + 1) pos

def findFrom (r : Regexp α) (text : List α) : Nat → Nat → Option (Nat × Nat)
  | 0, _ => none
  | n + 1, pos =>
      match (ends text r pos).head? with
      | some stop => some (pos, stop)
      | none => findFrom r text n (pos + 1)

def find (r : Regexp α) (text : List α) (pos : Nat) : Option (Nat × Nat) :=
  findFrom r text (text.length + 1 - pos) pos

def slice (text : List α) (start stop : Nat) : List α := (text.take stop).drop start

/-- The loop of `ReplaceAll`. An empty match right after another is not
replaced, and the search goes on at least one element further. -/
def replaceLoop (r : Regexp α) (copy : α → List β) (repl : List β) (text : List α)
    (lastMatchEnd searchPos : Nat) (buf : List β) : List β :=
  if searchPos ≤ text.length then
    match find r text searchPos with
    | none => buf ++ (text.drop lastMatchEnd).flatMap copy
    | some (start, stop) =>
        let buf := buf ++ (slice text lastMatchEnd start).flatMap copy
        let buf := if lastMatchEnd < stop ∨ start = 0 then buf ++ repl else buf
        replaceLoop r copy repl text stop (if stop < searchPos + 1 then searchPos + 1 else stop) buf
  else buf ++ (text.drop lastMatchEnd).flatMap copy
termination_by text.length + 1 - searchPos
decreasing_by split_ifs <;> omega

def replaceAll (r : Regexp α) (copy : α → List β) (repl : List β) (text : List α) : List β :=
  replaceLoop r copy repl text 0 0 []

section ends

variable (text : List α) (pos : Nat)

theorem ends_beginText_concat (r : Regexp α) :
    ends text (.concat .beginText r) pos = if pos = 0 then ends text r pos else [] := by
  rw [ends, ends]
  split_ifs
  · exact List.flatMap_singleton _ _
  · rfl

theorem head_alternate (r s : Regexp α) :
    (ends text (.alternate r s) pos).head? = (ends text r pos).head?.or
      (ends text s pos).head? := by
  rw [ends, List.head?_append]

theorem head_lazyPlus (r : Regexp α) :
    (ends text (.lazyPlus r) pos).head? = (ends text r pos).head? := by
  rw [ends, repeatLazy]
  cases ends text r pos with
  | nil => rfl
  | cons stop stops => rfl

end ends

section single

variable {r : Regexp α} {text : List α} {hit : Nat → α → Bool}

/-- At a position where `hit` holds the preferred match is one element long,
and elsewhere there is none. -/
def Single (r : Regexp α) (text : List α) (hit : Nat → α → Bool) : Prop :=
  ∀ pos, (ends text r pos).head? = if text[pos]?.any (hit pos) then some (pos + 1) else none

theorem single_alternate (p q : α → Bool) (text : List α) :
    Single (.alternate (.concat .beginText (.one p)) (.lazyPlus (.one q))) text fun pos a =>
      pos == 0 && p a || q a := by
  intro pos
  rw [head_alternate, head_lazyPlus, ends_beginText_concat, ends, ends]
  cases text[pos]? with
  | none => simp
  | some a =>
      simp only [Option.any_some]
      by_cases hpos : pos = 0 <;> by_cases hp : p a = true <;> by_cases hq :
        q a = true <;> simp [hpos, hp, hq]

theorem find_of_hit (h : Single r text hit) {pos : Nat} (hpos : text[pos]?.any (hit pos) = true) :
    find r text pos = some (pos, pos + 1) := by
  have hlt : pos < text.length := by
    by_contra hle
    rw [List.getElem?_eq_none (Nat.not_lt.mp hle)] at hpos
    cases hpos
  obtain ⟨n, hn⟩ : ∃ n, text.length + 1 - pos = n + 1 := ⟨text.length - pos, by omega⟩
  rw [find, hn, findFrom, h pos, if_pos hpos]

theorem find_of_not_hit (h : Single r text hit) {pos : Nat} (hle : pos ≤ text.length)
    (hpos : text[pos]?.any (hit pos) = false) : find r text pos = find r text (pos + 1) := by
  have hn : text.length + 1 - pos = text.length + 1 - (pos + 1) + 1 := by omega
  rw [find, hn, findFrom, h pos, if_neg (by simp [hpos])]
  rfl

theorem find_end (h : Single r text hit) : find r text text.length = none := by
  rw [find_of_not_hit h (Nat.le_refl _) (by simp), find, Nat.sub_self]
  rfl

theorem findFrom_stop (h : Single r text hit) {n pos start stop : Nat}
    (hfind : findFrom r text n pos = some (start, stop)) :
    pos < stop := by
  induction n generalizing pos with
  | zero => cases hfind
  | succ n ih =>
      rw [findFrom, h pos] at hfind
      split_ifs at hfind
      · cases hfind
        exact Nat.lt_succ_self _
      · exact Nat.lt_trans (Nat.lt_succ_self _) (ih hfind)

variable {copy : α → List β} {repl : List β}

theorem replaceLoop_of_not_hit (h : Single r text hit) {lastMatchEnd pos : Nat}
    (hlt : pos < text.length) (hpos : text[pos]?.any (hit pos) = false) (buf : List β) :
    replaceLoop r copy repl text lastMatchEnd pos buf = replaceLoop r copy repl text lastMatchEnd
      (pos + 1) buf := by
  have hle := Nat.le_of_lt hlt
  rw [replaceLoop, if_pos hle, find_of_not_hit h hle hpos]
  conv_rhs => rw [replaceLoop, if_pos (Nat.succ_le_of_lt hlt)]
  cases hfind : find r text (pos + 1) with
  | none => rfl
  | some found =>
      obtain ⟨start, stop⟩ := found
      have hstop : pos + 1 < stop := findFrom_stop h hfind
      simp only
      rw [if_neg (Nat.not_lt.mpr (Nat.le_of_lt hstop)), if_neg (Nat.not_lt.mpr hstop)]

theorem replaceLoop_of_hit (h : Single r text hit) {lastMatchEnd pos : Nat}
    (hlast : lastMatchEnd ≤ pos) (hlt : pos < text.length) (hpos : text[pos]?.any (hit pos) = true)
    (buf : List β) :
    replaceLoop r copy repl text lastMatchEnd pos buf =
      replaceLoop r copy repl text (pos + 1) (pos + 1)
      (buf ++ (slice text lastMatchEnd pos).flatMap copy ++ repl) := by
  rw [replaceLoop, if_pos (Nat.le_of_lt hlt), find_of_hit h hpos]
  simp only
  rw [if_pos (Or.inl (Nat.lt_succ_of_le hlast)), if_neg (Nat.lt_irrefl _)]

def replaced (hit : Nat → α → Bool) (copy : α → List β) (repl : List β) (text : List α)
    (pos : Nat) : List β :=
  (text.zipIdx.drop pos).flatMap fun a => if hit a.2 a.1 then repl else copy a.1

theorem replaced_of_lt {pos : Nat} (hlt : pos < text.length) :
    replaced hit copy repl text pos =
      (if hit pos text[pos] then repl else copy text[pos]) ++
        replaced hit copy repl text (pos + 1) := by
  have hlt' : pos < text.zipIdx.length := by rw [List.length_zipIdx]; exact hlt
  rw [replaced, List.drop_eq_getElem_cons hlt', List.flatMap_cons, List.getElem_zipIdx, replaced]
  simp

theorem slice_succ {start pos : Nat} (hstart : start ≤ pos) (hlt : pos < text.length) :
    slice text start (pos + 1) = slice text start pos ++ [text[pos]] := by
  have hlength : start ≤ (text.take pos).length := by rw [List.length_take]; omega
  rw [slice, List.take_succ_eq_append_getElem hlt, List.drop_append_of_le_length hlength, slice]

theorem replaceLoop_eq (h : Single r text hit) {lastMatchEnd pos : Nat} (hlast : lastMatchEnd ≤ pos)
    (hpos : pos ≤ text.length) (buf : List β) :
    replaceLoop r copy repl text lastMatchEnd pos buf =
      buf ++ (slice text lastMatchEnd pos).flatMap copy ++ replaced hit copy repl text pos := by
  obtain ⟨n, hn⟩ : ∃ n, text.length = pos + n := ⟨text.length - pos, by omega⟩
  induction n generalizing lastMatchEnd pos buf with
  | zero =>
      have hend : pos = text.length := hn.symm
      rw [replaceLoop, if_pos hpos, hend, find_end h, replaced, slice, List.take_length,
        List.drop_eq_nil_of_le (Nat.le_of_eq List.length_zipIdx), List.flatMap_nil, List.append_nil]
  | succ n ih =>
      have hlt : pos < text.length := by omega
      rw [replaced_of_lt hlt]
      cases hhit : hit pos text[pos] with
      | true =>
          have hany : text[pos]?.any (hit pos) = true := by
            rw [List.getElem?_eq_getElem hlt]; exact hhit
          rw [replaceLoop_of_hit h hlast hlt hany, ih (Nat.le_refl _) hlt _ (by omega)]
          have hnil : slice text (pos + 1) (pos + 1) = [] := by simp [slice]
          rw [hnil, List.flatMap_nil, List.append_nil, if_pos rfl, List.append_assoc]
      | false =>
          have hany : text[pos]?.any (hit pos) = false := by
            rw [List.getElem?_eq_getElem hlt]; exact hhit
          rw [replaceLoop_of_not_hit h hlt hany, ih (Nat.le_succ_of_le hlast) hlt _ (by omega),
            slice_succ hlast hlt]
          simp

theorem replaceAll_of_single (h : Single r text hit) :
    replaceAll r copy repl text = text.zipIdx.flatMap fun a => if hit a.2 a.1 then repl
      else copy a.1 := by
  rw [replaceAll, replaceLoop_eq h (Nat.le_refl 0) (Nat.zero_le _)]
  rfl

end single

end LogCache.Regexps
