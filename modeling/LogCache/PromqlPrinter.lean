import LogCache.Promql
import Mathlib.Data.List.Sort
import Mathlib.Data.String.Basic

namespace LogCache.PromqlPrinter

open Envelopes Promql

/-- What the printer takes from the standard library: which characters
`strconv.IsPrint` accepts, and the text of a number. -/
structure Formats where
  isPrint : Char → Bool
  sprint : Float64 → String

section texts

def joinWith (sep : String) : List String → String
  | [] => ""
  | [x] => x
  | x :: y :: xs => x ++ sep ++ joinWith sep (y :: xs)

def hexDigits : (width n : Nat) → List Char
  | 0, _ => []
  | width + 1, n => hexDigits width (n / 16) ++ [Nat.digitChar (n % 16)]

def escapeRune (f : Formats) (c : Char) : List Char :=
  if c = '"' ∨ c = '\\' then ['\\', c]
  else if f.isPrint c then [c]
  else if c = Char.ofNat 7 then ['\\', 'a']
  else if c = Char.ofNat 8 then ['\\', 'b']
  else if c = Char.ofNat 12 then ['\\', 'f']
  else if c = '\n' then ['\\', 'n']
  else if c = '\r' then ['\\', 'r']
  else if c = '\t' then ['\\', 't']
  else if c = Char.ofNat 11 then ['\\', 'v']
  else if c < ' ' ∨ c = Char.ofNat 127 then '\\' :: 'x' :: hexDigits 2 c.toNat
  else if c.toNat < 65536 then '\\' :: 'u' :: hexDigits 4 c.toNat
  else '\\' :: 'U' :: hexDigits 8 c.toNat

def quote (f : Formats) (s : String) : String :=
  String.ofList ('"' :: s.toList.flatMap (escapeRune f) ++ ['"'])

theorem quote_empty (f : Formats) : quote f "" = "\"\"" := rfl

theorem two_le_length_quote (f : Formats) (s : String) : 2 ≤ (quote f s).length := by
  rw [quote, String.length_ofList, List.length_append, List.length_cons, List.length_singleton]
  omega

/-- The units of `model.Duration`; years and weeks are written only if nothing
is left over. -/
def units : List (String × Int64 × Bool) :=
  [("y", 31536000000, true), ("w", 604800000, true), ("d", 86400000, false), ("h", 3600000, false),
    ("m", 60000, false), ("s", 1000, false), ("ms", 1, false)]

def durationLoop : List (String × Int64 × Bool) → (ms : Int64) → String
  | [], _ => ""
  | (unit, mult, exact) :: units, ms =>
      if exact = true ∧ ms % mult ≠ 0 then durationLoop units ms
      else if 0 < ms / mult then
        toString (ms / mult) ++ unit ++ durationLoop units (ms - ms / mult * mult)
      else durationLoop units ms

def durationString (d : Int64) : String :=
  if d / 1000000 = 0 then "0s" else durationLoop units (d / 1000000)

def operatorString : Operator → String
  | .sub => "-"
  | .add => "+"
  | .mul => "*"
  | .mod => "%"
  | .div => "/"
  | .land => "and"
  | .lor => "or"
  | .lunless => "unless"
  | .eql => "=="
  | .neq => "!="
  | .lte => "<="
  | .lss => "<"
  | .gte => ">="
  | .gtr => ">"
  | .pow => "^"

def aggregatorString : Aggregator → String
  | .avg => "avg"
  | .count => "count"
  | .sum => "sum"
  | .min => "min"
  | .max => "max"
  | .stddev => "stddev"
  | .stdvar => "stdvar"
  | .topK => "topk"
  | .bottomK => "bottomk"
  | .countValues => "count_values"
  | .quantile => "quantile"

def isAggregatorWithParam : Aggregator → Bool
  | .topK | .bottomK | .countValues | .quantile => true
  | _ => false

def matchTypeString : MatchType → String
  | .equal => "="
  | .notEqual => "!="
  | .regexp => "=~"
  | .notRegexp => "!~"

def groupingString (grouping : List String) (without : Bool) : String :=
  if without then " without(" ++ joinWith ", " grouping ++ ") "
  else if 0 < grouping.length then " by(" ++ joinWith ", " grouping ++ ") "
  else ""

def cardString : Cardinality → List String → String
  | .manyToOne, labels => " group_left(" ++ joinWith ", " labels ++ ")"
  | .oneToMany, labels => " group_right(" ++ joinWith ", " labels ++ ")"
  | _, _ => ""

def matchingString : Option VectorMatching → String
  | none => ""
  | some vm =>
      if 0 < vm.matchingLabels.length ∨ vm.on = true then
        (if vm.on then " on(" else " ignoring(") ++ joinWith ", " vm.matchingLabels ++ ")" ++
          cardString vm.card vm.include_
      else ""

def offsetString (offset : Int64) : String :=
  if offset = 0 then "" else " offset " ++ durationString offset

end texts

section print

variable (f : Formats)

def matcherString (labelMatcher : Matcher) : String :=
  labelMatcher.name ++ matchTypeString labelMatcher.type ++ quote f labelMatcher.value

def IsName (name : String) (labelMatcher : Matcher) : Prop :=
  labelMatcher.name = "__name__" ∧ labelMatcher.type = .equal ∧ labelMatcher.value = name

instance (name : String) : DecidablePred (IsName name) :=
  fun _ => inferInstanceAs (Decidable (_ ∧ _ ∧ _))

def labelStrings (name : String) (labelMatchers : List Matcher) : List String :=
  (labelMatchers.filter fun labelMatcher => ¬ IsName name labelMatcher).map (matcherString f)

/-- `VectorSelector.String`. The matchers are written in the order of their
texts, whatever the order in the query was. -/
def selectorString (name : String) (offset : Int64) (labelMatchers : List Matcher) : String :=
  match labelStrings f name labelMatchers with
  | [] => name ++ offsetString offset
  | labels =>
      name ++ "\x7b" ++ joinWith "," (labels.insertionSort (· ≤ ·)) ++ "\x7d" ++ offsetString offset

mutual

/-- The `String` methods of the expressions. A subquery is written without its
offset. -/
def exprString : Expr → String
  | .aggregate op expr param grouping without =>
      aggregatorString op ++ groupingString grouping without ++ "(" ++
        (if isAggregatorWithParam op then paramString param ++ ", " else "") ++
          exprString expr ++ ")"
  | .binary op lhs rhs vectorMatching returnBool =>
      exprString lhs ++ " " ++ operatorString op ++ (if returnBool then " bool" else "") ++
        matchingString vectorMatching ++ " " ++ exprString rhs
  | .call func args => func ++ "(" ++ joinWith ", " (argStrings args) ++ ")"
  | .matrixSelector name range offset labelMatchers =>
      selectorString f name 0 labelMatchers ++ "[" ++ durationString range ++ "]" ++
        offsetString offset
  | .subquery expr range _ step =>
      exprString expr ++ "[" ++ durationString range ++ ":" ++
        (if step = 0 then "" else durationString step) ++ "]"
  | .number val => f.sprint val
  | .paren expr => "(" ++ exprString expr ++ ")"
  | .string val => quote f val
  | .unary op expr => operatorString op ++ exprString expr
  | .vectorSelector name offset labelMatchers => selectorString f name offset labelMatchers

def paramString : Option Expr → String
  | none => "%!s(<nil>)"
  | some expr => exprString expr

def argStrings : List Expr → List String
  | [] => []
  | arg :: args => exprString arg :: argStrings args

end

end print

section params

mutual

/-- Only the aggregations that take a parameter have one, as the parser leaves
them. -/
def ParamsTaken : Expr → Prop
  | .aggregate op expr param _ _ =>
      (isAggregatorWithParam op = false → param = none) ∧ ParamsTaken expr ∧ ParamTaken param
  | .binary _ lhs rhs _ _ => ParamsTaken lhs ∧ ParamsTaken rhs
  | .call _ args => ArgsTaken args
  | .subquery expr _ _ _ => ParamsTaken expr
  | .paren expr => ParamsTaken expr
  | .unary _ expr => ParamsTaken expr
  | .matrixSelector .. | .number _ | .string _ | .vectorSelector .. => True

def ParamTaken : Option Expr → Prop
  | none => True
  | some expr => ParamsTaken expr

def ArgsTaken : List Expr → Prop
  | [] => True
  | arg :: args => ParamsTaken arg ∧ ArgsTaken args

end

end params

section lengths

def total : List String → Nat
  | [] => 0
  | x :: xs => x.length + total xs

theorem total_perm {xs ys : List String} (h : xs.Perm ys) : total xs = total ys := by
  induction h with
  | nil => rfl
  | cons x _ ih => rw [total, total, ih]
  | swap x y xs =>
      rw [total, total, total, total]
      omega
  | trans _ _ ih₁ ih₂ => exact ih₁.trans ih₂

theorem length_joinWith (sep : String) (xs : List String) :
    (joinWith sep xs).length = total xs + sep.length * (xs.length - 1) := by
  induction xs with
  | nil => rfl
  | cons x xs ih =>
      cases xs with
      | nil => rfl
      | cons y ys =>
          rw [joinWith, String.length_append, String.length_append, ih]
          simp only [total, List.length_cons, Nat.add_sub_cancel, Nat.mul_add, Nat.mul_one]
          omega

theorem joinWith_shorter (sep : String) {xs ys : List String}
    (hlen : xs.length = ys.length) {n : Nat} (h : total xs + n ≤ total ys) :
    (joinWith sep xs).length + n ≤ (joinWith sep ys).length := by
  rw [length_joinWith, length_joinWith, hlen]
  omega

end lengths

section shortening

/-- A change of matchers that makes some of them shorter and none longer, and
leaves alone those that are not written. -/
structure Shortens (f : Formats) (change : Matcher → Matcher) (lost : Matcher → Bool) : Prop where
  isName : ∀ name labelMatcher, IsName name (change labelMatcher) ↔ IsName name labelMatcher
  written : ∀ name labelMatcher, lost labelMatcher = true → ¬ IsName name labelMatcher
  length : ∀ labelMatcher, (matcherString f (change labelMatcher)).length +
    (if lost labelMatcher then 1 else 0) ≤ (matcherString f labelMatcher).length

variable {f : Formats} {change : Matcher → Matcher} {lost : Matcher → Bool}

theorem labelStrings_shorter (h : Shortens f change lost) (name : String)
    (labelMatchers : List Matcher) :
    (labelStrings f name (labelMatchers.map change)).length =
        (labelStrings f name labelMatchers).length ∧
      total (labelStrings f name (labelMatchers.map change)) + labelMatchers.countP lost ≤
        total (labelStrings f name labelMatchers) := by
  induction labelMatchers with
  | nil => exact ⟨rfl, le_rfl⟩
  | cons labelMatcher labelMatchers ih =>
      have hiff := h.isName name labelMatcher
      rw [List.countP_cons, List.map_cons]
      simp only [labelStrings] at ih ⊢
      by_cases hname : IsName name labelMatcher
      · have hlost : lost labelMatcher = false :=
          Bool.eq_false_iff.mpr fun hlost => h.written name labelMatcher hlost hname
        rw [List.filter_cons_of_neg (by simp [hiff, hname]),
          List.filter_cons_of_neg (by simp [hname])]
        simpa [hlost] using ih
      · have hlen := h.length labelMatcher
        rw [List.filter_cons_of_pos (by simp [hiff, hname]),
          List.filter_cons_of_pos (by simp [hname])]
        simp only [List.map_cons, List.length_cons, total]
        exact ⟨by rw [ih.1], by omega⟩

theorem selectorString_shorter (h : Shortens f change lost) (name : String) (offset : Int64)
    (labelMatchers : List Matcher) :
    (selectorString f name offset (labelMatchers.map change)).length + labelMatchers.countP lost ≤
      (selectorString f name offset labelMatchers).length := by
  obtain ⟨hlen, htotal⟩ := labelStrings_shorter h name labelMatchers
  rw [selectorString, selectorString]
  generalize labelStrings f name (labelMatchers.map change) = xs at hlen htotal
  generalize labelStrings f name labelMatchers = ys at hlen htotal
  cases xs with
  | nil =>
      rw [List.eq_nil_of_length_eq_zero hlen.symm] at htotal ⊢
      simp only [total] at htotal ⊢
      omega
  | cons x xs =>
      cases ys with
      | nil => cases hlen
      | cons y ys =>
          have hsorted : ((x :: xs).insertionSort (· ≤ ·)).length =
              ((y :: ys).insertionSort (· ≤ ·)).length := by
            rw [List.length_insertionSort, List.length_insertionSort, hlen]
          rw [← total_perm (List.perm_insertionSort (· ≤ ·) (x :: xs)),
            ← total_perm (List.perm_insertionSort (· ≤ ·) (y :: ys))] at htotal
          have hjoin := joinWith_shorter "," hsorted htotal
          simp only [String.length_append]
          omega

mutual

theorem exprString_shorter (h : Shortens f change lost) : ∀ e : Expr, ParamsTaken e →
    (exprString f (e.mapMatchers change)).length + e.selectors.flatten.countP lost ≤
      (exprString f e).length
  | .aggregate op expr param _ _, ht => by
      obtain ⟨hparam, hexpr, ht⟩ := ht
      have hlen := exprString_shorter h expr hexpr
      have hlen' := paramString_shorter h param ht
      simp only [Expr.mapMatchers, exprString, Expr.selectors, List.flatten_append,
        List.countP_append, String.length_append]
      cases htakes : isAggregatorWithParam op with
      | false =>
          simp only [hparam htakes, paramSelectors, List.flatten_nil, List.countP_nil,
            Bool.false_eq_true, if_false]
          omega
      | true =>
          simp only [if_true, String.length_append]
          omega
  | .binary _ lhs rhs _ _, ht => by
      have hlhs := exprString_shorter h lhs ht.1
      have hrhs := exprString_shorter h rhs ht.2
      simp only [Expr.mapMatchers, exprString, Expr.selectors, List.flatten_append,
        List.countP_append, String.length_append]
      omega
  | .call _ args, ht => by
      obtain ⟨hlen, htotal⟩ := argStrings_shorter h args ht
      have hjoin := joinWith_shorter ", " hlen htotal
      simp only [Expr.mapMatchers, exprString, Expr.selectors, String.length_append]
      omega
  | .matrixSelector name _ _ labelMatchers, _ => by
      have hlen := selectorString_shorter h name 0 labelMatchers
      simp only [Expr.mapMatchers, exprString, Expr.selectors, List.flatten_singleton,
        String.length_append]
      omega
  | .subquery expr _ _ _, ht => by
      have hlen := exprString_shorter h expr ht
      simp only [Expr.mapMatchers, exprString, Expr.selectors, String.length_append]
      omega
  | .number _, _ => by simp [Expr.mapMatchers, exprString, Expr.selectors]
  | .paren expr, ht => by
      have hlen := exprString_shorter h expr ht
      simp only [Expr.mapMatchers, exprString, Expr.selectors, String.length_append]
      omega
  | .string _, _ => by simp [Expr.mapMatchers, exprString, Expr.selectors]
  | .unary _ expr, ht => by
      have hlen := exprString_shorter h expr ht
      simp only [Expr.mapMatchers, exprString, Expr.selectors, String.length_append]
      omega
  | .vectorSelector name offset labelMatchers, _ => by
      simp only [Expr.mapMatchers, exprString, Expr.selectors, List.flatten_singleton]
      exact selectorString_shorter h name offset labelMatchers

theorem paramString_shorter (h : Shortens f change lost) : ∀ param : Option Expr, ParamTaken param →
    (paramString f (mapParam change param)).length + (paramSelectors param).flatten.countP lost ≤
      (paramString f param).length
  | none, _ => le_rfl
  | some expr, ht => exprString_shorter h expr ht

theorem argStrings_shorter (h : Shortens f change lost) : ∀ args : List Expr, ArgsTaken args →
    (argStrings f (mapArgs change args)).length = (argStrings f args).length ∧
      total (argStrings f (mapArgs change args)) + (argSelectors args).flatten.countP lost ≤
        total (argStrings f args)
  | [], _ => ⟨rfl, le_rfl⟩
  | arg :: args, ht => by
      have hlen := exprString_shorter h arg ht.1
      obtain ⟨hargs, htotal⟩ := argStrings_shorter h args ht.2
      simp only [mapArgs, argStrings, argSelectors, List.flatten_append, List.countP_append, total,
        List.length_cons]
      exact ⟨by rw [hargs], by omega⟩

end

end shortening

end LogCache.PromqlPrinter
