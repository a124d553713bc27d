import LogCache.Querier
import LogCache.Regexps
import LogCache.Runes

namespace LogCache.MetricNames

open Querier Regexps Runes

def isWord (c : Char) : Bool := c.isAlphanum || c == '_'

def separators : Regexp Rune :=
  .alternate
    (.concat .beginText (.one fun r => !(decide ('A' ≤ r.value) && decide (r.value ≤ 'z') ||
      r.value == '_')))
    (.lazyPlus (.one fun r => !isWord r.value || r.value == '_'))

def sanitizeMetricName (name : List UInt8) : List UInt8 :=
  Regexps.replaceAll separators Rune.bytes (encode ['_']) (runes name)

section matching

theorem single_separators (text : List Rune) :
    Single separators text fun pos r => matchesAt (pos == 0) r.value :=
  single_alternate _ _ text

theorem isAlpha_iff (c : Char) : c.isAlpha = true ↔ ('A' ≤ c ∧ c ≤ 'z') ∧ c.isAlphanum = true := by
  constructor
  · intro halpha
    have hcases : (decide ('A' ≤ c ∧ c ≤ 'Z') || (decide ('a' ≤ c) && decide (c ≤ 'z'))) = true :=
      halpha
    have halnum : (c.isAlpha || c.isDigit) = true := by rw [halpha, Bool.true_or]
    refine ⟨?_, halnum⟩
    rw [Bool.or_eq_true, Bool.and_eq_true, decide_eq_true_iff, decide_eq_true_iff,
      decide_eq_true_iff] at hcases
    rcases hcases with ⟨hlow, hhigh⟩ | ⟨hlow, hhigh⟩
    · exact ⟨hlow, Char.le_trans hhigh (by decide)⟩
    · exact ⟨Char.le_trans (by decide) hlow, hhigh⟩
  · rintro ⟨⟨hlow, _⟩, halnum⟩
    have hcases : (c.isAlpha || (decide ('0' ≤ c) && decide (c ≤ '9'))) = true := halnum
    rw [Bool.or_eq_true, Bool.and_eq_true, decide_eq_true_iff, decide_eq_true_iff] at hcases
    refine hcases.resolve_right fun hdigit => ?_
    exact absurd (Char.le_trans hlow hdigit.2) (by decide)

theorem matchesAt_start (c : Char) : matchesAt true c = !c.isAlpha := by
  by_cases hc : c = '_'
  · rw [hc]
    rfl
  · have hne : (c == '_') = false := beq_false_of_ne hc
    rw [Bool.eq_iff_iff, Bool.not_eq_true', ← Bool.not_eq_true, isAlpha_iff, not_and_or]
    simp [matchesAt, hne, imp_iff_not_or]

theorem matchesAt_later (c : Char) : matchesAt false c = !c.isAlphanum := by
  by_cases hc : c = '_'
  · rw [hc]
    rfl
  · have hne : (c == '_') = false := beq_false_of_ne hc
    simp [matchesAt, hne]

end matching

section cleaning

/-- The first character if it is a letter and every other if it is a letter or
a digit, with underscores in the place of the rest. -/
def cleaned : List Char → List Char
  | [] => []
  | c :: cs => (if c.isAlpha then c else '_') :: cs.map fun d => if d.isAlphanum then d else '_'

def InGrammar (name : List UInt8) : Prop :=
  ∃ c cs, name = encode (c :: cs) ∧ (c.isAlpha = true ∨ c = '_') ∧
    ∀ d ∈ cs, d.isAlphanum = true ∨ d = '_'

theorem length_cleaned (cs : List Char) : (cleaned cs).length = cs.length := by
  cases cs with
  | nil => rfl
  | cons c cs => simp [cleaned]

theorem kept_of {keep : Char → Bool} {c : Char} (h : keep c = true ∨ c = '_') :
    (if keep c then c else '_') = c := by
  rcases h with hc | rfl
  · exact if_pos hc
  · exact ite_self _

theorem kept_or_underscore (keep : Char → Bool) (c : Char) :
    keep (if keep c then c else '_') = true ∨ (if keep c then c else '_') = '_' := by
  cases hc : keep c with
  | true => exact Or.inl hc
  | false => exact Or.inr rfl

theorem cleaned_of_inGrammar {c : Char} {cs : List Char} (hc : c.isAlpha = true ∨ c = '_')
    (hcs : ∀ d ∈ cs, d.isAlphanum = true ∨ d = '_') : cleaned (c :: cs) = c :: cs := by
  have hrest : (cs.map fun d => if d.isAlphanum then d else '_') = cs.map id :=
    List.map_congr_left fun d hd => kept_of (hcs d hd)
  rw [cleaned, kept_of hc, hrest, List.map_id]

theorem inGrammar_cleaned (cs : List Char) : cleaned cs = [] ∨ InGrammar (encode (cleaned cs)) := by
  cases cs with
  | nil => exact Or.inl rfl
  | cons c cs =>
      refine Or.inr ⟨_, _, rfl, kept_or_underscore Char.isAlpha c, ?_⟩
      intro d hd
      obtain ⟨d', _, rfl⟩ := List.mem_map.mp hd
      exact kept_or_underscore Char.isAlphanum d'

theorem values_runes_encode (cs : List Char) : (runes (encode cs)).map Rune.value = cs := by
  rw [runes_encode, List.map_map]
  exact List.map_id cs

theorem written_eq {name : List UInt8} {r : Rune} (hr : r ∈ runes name) {keep : Bool}
    (hkeep : keep = true → r.value.isAlphanum = true) :
    (if !keep then encode ['_'] else r.bytes) = String.utf8EncodeChar
      (if keep then r.value else '_') := by
  cases keep with
  | false => exact List.append_nil _
  | true =>
      have hvalue : r.value ≠ runeError := by
        intro heq
        have halnum := hkeep rfl
        rw [heq] at halnum
        revert halnum
        decide
      exact congrArg Rune.bytes (eq_of_mem_runes hr hvalue)

theorem written_at {name : List UInt8} {r : Rune} (hr : r ∈ runes name) (pos : Nat) :
    (if matchesAt (pos == 0) r.value then encode ['_'] else r.bytes)
      = String.utf8EncodeChar (if (if pos == 0 then r.value.isAlpha else r.value.isAlphanum)
        then r.value else '_') := by
  cases pos with
  | zero =>
      change (if matchesAt true r.value then _ else _) = _
      rw [matchesAt_start]
      exact written_eq hr fun halpha => ((isAlpha_iff _).mp halpha).2
  | succ pos =>
      change (if matchesAt false r.value then _ else _) = _
      rw [matchesAt_later]
      exact written_eq hr id

theorem written_rest {name : List UInt8} {rs : List Rune} (hrs : ∀ r ∈ rs, r ∈ runes name)
    (pos : Nat) :
    ((rs.zipIdx (pos + 1)).flatMap fun a => if matchesAt (a.2 == 0) a.1.value then encode ['_']
      else a.1.bytes)
      = encode ((rs.map Rune.value).map fun d => if d.isAlphanum then d else '_') := by
  induction rs generalizing pos with
  | nil => rfl
  | cons r rs ih =>
      rw [List.zipIdx_cons, List.flatMap_cons, written_at (hrs r (.head _)),
        ih (fun r' hr' => hrs r' (.tail _ hr'))]
      rfl

theorem sanitizeMetricName_eq (name : List UInt8) :
    sanitizeMetricName name = encode (cleaned ((runes name).map Rune.value)) := by
  rw [sanitizeMetricName, replaceAll_of_single (single_separators _)]
  cases hrs : runes name with
  | nil => rfl
  | cons r rs =>
      have hr : r ∈ runes name := hrs ▸ List.mem_cons_self
      have hrest : ∀ r' ∈ rs, r' ∈ runes name := fun r' hr' => hrs ▸ List.mem_cons_of_mem r hr'
      rw [List.zipIdx_cons, List.flatMap_cons, written_at hr, written_rest hrest]
      rfl

theorem replaceAll_later (cs : List Char) :
    Querier.replaceAll false cs = cs.map fun d => if d.isAlphanum then d else '_' := by
  induction cs with
  | nil => rfl
  | cons c cs ih =>
      rw [Querier.replaceAll, ih, matchesAt_later, List.map_cons]
      cases c.isAlphanum <;> rfl

theorem sanitizeMetricName_encode (name : String) :
    sanitizeMetricName (encode name.toList) = encode (Querier.sanitizeMetricName name).toList := by
  rw [sanitizeMetricName_eq, values_runes_encode, Querier.sanitizeMetricName, String.toList_ofList]
  cases name.toList with
  | nil => rfl
  | cons c cs =>
      rw [Querier.replaceAll, replaceAll_later, matchesAt_start, cleaned]
      cases c.isAlpha <;> rfl

theorem sanitizeMetricName_of_inGrammar {name : List UInt8} (h : InGrammar name) :
    sanitizeMetricName name = name := by
  obtain ⟨c, cs, rfl, hc, hcs⟩ := h
  rw [sanitizeMetricName_eq, values_runes_encode, cleaned_of_inGrammar hc hcs]

theorem inGrammar_sanitizeMetricName (name : List UInt8) :
    sanitizeMetricName name = [] ∨ InGrammar (sanitizeMetricName name) := by
  rw [sanitizeMetricName_eq]
  rcases inGrammar_cleaned ((runes name).map Rune.value) with hnil | hin
  · rw [hnil]
    exact Or.inl rfl
  · exact Or.inr hin

theorem sanitizing_exact (name : List UInt8) :
    (runes (sanitizeMetricName name)).length = (runes name).length ∧
      (sanitizeMetricName name = [] ∨ InGrammar (sanitizeMetricName name)) ∧
      sanitizeMetricName name = encode (cleaned ((runes name).map Rune.value)) ∧
      sanitizeMetricName (sanitizeMetricName name) = sanitizeMetricName name ∧
      (InGrammar name → sanitizeMetricName name = name) := by
  have hgrammar := inGrammar_sanitizeMetricName name
  refine ⟨?_, hgrammar, sanitizeMetricName_eq name, ?_, sanitizeMetricName_of_inGrammar⟩
  · rw [sanitizeMetricName_eq, runes_encode, List.length_map, length_cleaned, List.length_map]
  · rcases hgrammar with hnil | hin
    · rw [hnil, sanitizeMetricName_eq, runes]
      rfl
    · exact sanitizeMetricName_of_inGrammar hin

theorem sanitizing_exact_a_1 : InGrammar (encode ['a', '_', '1']) ∧
    sanitizeMetricName (encode ['a', '_', '1']) = encode ['a', '_', '1'] := by
  have hin : InGrammar (encode ['a', '_', '1']) := by
    refine ⟨'a', ['_', '1'], rfl, Or.inl rfl, ?_⟩
    exact List.forall_mem_cons.mpr ⟨Or.inr rfl, List.forall_mem_singleton.mpr (Or.inl rfl)⟩
  exact ⟨hin, (sanitizing_exact _).2.2.2.2 hin⟩

-- A `^` lies between `Z` and `a`; in the first place it is replaced by the other branch.
example : sanitizeMetricName (encode ['^', '9', '-', '_', 'é']) =
  encode ['_', '9', '_', '_', '_'] := by
  rw [sanitizeMetricName_eq, values_runes_encode]
  rfl

end cleaning

end LogCache.MetricNames
