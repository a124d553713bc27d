import LogCache.Envelopes
import LogCache.SyncMap

namespace LogCache.Promql

open Envelopes

inductive MatchType
  | equal
  | notEqual
  | regexp
  | notRegexp
deriving DecidableEq

structure Matcher where
  type : MatchType
  name : String
  value : String
deriving DecidableEq

inductive Operator
  | sub
  | add
  | mul
  | mod
  | div
  | land
  | lor
  | lunless
  | eql
  | neq
  | lte
  | lss
  | gte
  | gtr
  | pow

inductive Aggregator
  | avg
  | count
  | sum
  | min
  | max
  | stddev
  | stdvar
  | topK
  | bottomK
  | countValues
  | quantile

inductive Cardinality
  | oneToOne
  | manyToOne
  | oneToMany
  | manyToMany

structure VectorMatching where
  card : Cardinality
  matchingLabels : List String
  on : Bool
  include_ : List String

/-- The expressions of the query language; durations are in nanoseconds. -/
inductive Expr
  | aggregate (op : Aggregator) (expr : Expr) (param : Option Expr) (grouping : List String)
    (without : Bool)
  | binary (op : Operator) (lhs rhs : Expr) (vectorMatching : Option VectorMatching)
    (returnBool : Bool)
  | call (func : String) (args : List Expr)
  | matrixSelector (name : String) (range offset : Int64) (labelMatchers : List Matcher)
  | subquery (expr : Expr) (range offset step : Int64)
  | number (val : Float64)
  | paren (expr : Expr)
  | string (val : String)
  | unary (op : Operator) (expr : Expr)
  | vectorSelector (name : String) (offset : Int64) (labelMatchers : List Matcher)

section walk

mutual

def Expr.selectors : Expr → List (List Matcher)
  | .aggregate _ expr param _ _ => paramSelectors param ++ expr.selectors
  | .binary _ lhs rhs _ _ => lhs.selectors ++ rhs.selectors
  | .call _ args => argSelectors args
  | .matrixSelector _ _ _ labelMatchers => [labelMatchers]
  | .subquery expr _ _ _ => expr.selectors
  | .number _ => []
  | .paren expr => expr.selectors
  | .string _ => []
  | .unary _ expr => expr.selectors
  | .vectorSelector _ _ labelMatchers => [labelMatchers]

def paramSelectors : Option Expr → List (List Matcher)
  | none => []
  | some expr => expr.selectors

def argSelectors : List Expr → List (List Matcher)
  | [] => []
  | arg :: args => arg.selectors ++ argSelectors args

end

mutual

/-- A visitor that changes each label matcher in place. -/
def Expr.mapMatchers (f : Matcher → Matcher) : Expr → Expr
  | .aggregate op expr param grouping without =>
      .aggregate op (expr.mapMatchers f) (mapParam f param) grouping without
  | .binary op lhs rhs vectorMatching returnBool =>
      .binary op (lhs.mapMatchers f) (rhs.mapMatchers f) vectorMatching returnBool
  | .call func args => .call func (mapArgs f args)
  | .matrixSelector name range offset labelMatchers =>
      .matrixSelector name range offset (labelMatchers.map f)
  | .subquery expr range offset step => .subquery (expr.mapMatchers f) range offset step
  | .number val => .number val
  | .paren expr => .paren (expr.mapMatchers f)
  | .string val => .string val
  | .unary op expr => .unary op (expr.mapMatchers f)
  | .vectorSelector name offset labelMatchers => .vectorSelector name offset (labelMatchers.map f)

def mapParam (f : Matcher → Matcher) : Option Expr → Option Expr
  | none => none
  | some expr => some (expr.mapMatchers f)

def mapArgs (f : Matcher → Matcher) : List Expr → List Expr
  | [] => []
  | arg :: args => arg.mapMatchers f :: mapArgs f args

end

mutual

theorem selectors_mapMatchers (f : Matcher → Matcher) :
    ∀ e : Expr, (e.mapMatchers f).selectors = e.selectors.map (List.map f)
  | .aggregate _ expr param _ _ => by
      rw [Expr.mapMatchers, Expr.selectors, Expr.selectors, List.map_append,
        selectors_mapMatchers f expr, paramSelectors_mapParam f param]
  | .binary _ lhs rhs _ _ => by
      rw [Expr.mapMatchers, Expr.selectors, Expr.selectors, List.map_append,
        selectors_mapMatchers f lhs, selectors_mapMatchers f rhs]
  | .call _ args => by
      rw [Expr.mapMatchers, Expr.selectors, Expr.selectors, argSelectors_mapArgs f args]
  | .matrixSelector .. => rfl
  | .subquery expr _ _ _ => by
      rw [Expr.mapMatchers, Expr.selectors, Expr.selectors, selectors_mapMatchers f expr]
  | .number _ => rfl
  | .paren expr => by
      rw [Expr.mapMatchers, Expr.selectors, Expr.selectors, selectors_mapMatchers f expr]
  | .string _ => rfl
  | .unary _ expr => by
      rw [Expr.mapMatchers, Expr.selectors, Expr.selectors, selectors_mapMatchers f expr]
  | .vectorSelector .. => rfl

theorem paramSelectors_mapParam (f : Matcher → Matcher) :
    ∀ param : Option Expr, paramSelectors (mapParam f param) =
      (paramSelectors param).map (List.map f)
  | none => rfl
  | some expr => selectors_mapMatchers f expr

theorem argSelectors_mapArgs (f : Matcher → Matcher) :
    ∀ args : List Expr, argSelectors (mapArgs f args) = (argSelectors args).map (List.map f)
  | [] => rfl
  | arg :: args => by
      rw [mapArgs, argSelectors, argSelectors, List.map_append, selectors_mapMatchers f arg,
        argSelectors_mapArgs f args]

end

section changes

variable {f g : Matcher → Matcher}

mutual

theorem mapMatchers_congr :
    ∀ e : Expr, (∀ selector ∈ e.selectors, selector.map f = selector.map g) →
      e.mapMatchers f = e.mapMatchers g
  | .aggregate _ expr param _ _, h => by
      obtain ⟨hparam, hexpr⟩ := List.forall_mem_append.mp h
      rw [Expr.mapMatchers, Expr.mapMatchers, mapMatchers_congr expr hexpr,
        mapParam_congr param hparam]
  | .binary _ lhs rhs _ _, h => by
      obtain ⟨hlhs, hrhs⟩ := List.forall_mem_append.mp h
      rw [Expr.mapMatchers, Expr.mapMatchers, mapMatchers_congr lhs hlhs,
        mapMatchers_congr rhs hrhs]
  | .call _ args, h => by
      rw [Expr.mapMatchers, Expr.mapMatchers, mapArgs_congr args h]
  | .matrixSelector _ _ _ labelMatchers, h => by
      rw [Expr.mapMatchers, Expr.mapMatchers, h labelMatchers (List.mem_singleton_self _)]
  | .subquery expr _ _ _, h => by
      rw [Expr.mapMatchers, Expr.mapMatchers, mapMatchers_congr expr h]
  | .number _, _ => rfl
  | .paren expr, h => by
      rw [Expr.mapMatchers, Expr.mapMatchers, mapMatchers_congr expr h]
  | .string _, _ => rfl
  | .unary _ expr, h => by
      rw [Expr.mapMatchers, Expr.mapMatchers, mapMatchers_congr expr h]
  | .vectorSelector _ _ labelMatchers, h => by
      rw [Expr.mapMatchers, Expr.mapMatchers, h labelMatchers (List.mem_singleton_self _)]

theorem mapParam_congr : ∀ param : Option Expr,
    (∀ selector ∈ paramSelectors param, selector.map f = selector.map g) →
      mapParam f param = mapParam g param
  | none, _ => rfl
  | some expr, h => by rw [mapParam, mapParam, mapMatchers_congr expr h]

theorem mapArgs_congr : ∀ args : List Expr,
    (∀ selector ∈ argSelectors args, selector.map f = selector.map g) →
      mapArgs f args = mapArgs g args
  | [], _ => rfl
  | arg :: args, h => by
      obtain ⟨harg, hargs⟩ := List.forall_mem_append.mp h
      rw [mapArgs, mapArgs, mapMatchers_congr arg harg, mapArgs_congr args hargs]

end

theorem mapMatchers_eq_iff (e : Expr) :
    e.mapMatchers f = e.mapMatchers g ↔ ∀ labelMatcher ∈ e.selectors.flatten,
      f labelMatcher = g labelMatcher := by
  constructor
  · intro h labelMatcher hmem
    obtain ⟨selector, hselector, hmem⟩ := List.mem_flatten.mp hmem
    have hselectors := congrArg Expr.selectors h
    rw [selectors_mapMatchers, selectors_mapMatchers, List.map_inj_left] at hselectors
    exact List.map_inj_left.mp (hselectors selector hselector) labelMatcher hmem
  · intro h
    refine mapMatchers_congr e fun selector hselector =>
      List.map_congr_left fun labelMatcher hmem => ?_
    exact h labelMatcher (List.mem_flatten.mpr ⟨selector, hselector, hmem⟩)

mutual

theorem mapMatchers_comp (f g : Matcher → Matcher) : ∀ e :
    Expr, (e.mapMatchers f).mapMatchers g = e.mapMatchers (g ∘ f)
  | .aggregate _ expr param _ _ => by
      rw [Expr.mapMatchers, Expr.mapMatchers, Expr.mapMatchers, mapMatchers_comp f g expr,
        mapParam_comp f g param]
  | .binary _ lhs rhs _ _ => by
      rw [Expr.mapMatchers, Expr.mapMatchers, Expr.mapMatchers, mapMatchers_comp f g lhs,
        mapMatchers_comp f g rhs]
  | .call _ args => by
      rw [Expr.mapMatchers, Expr.mapMatchers, Expr.mapMatchers, mapArgs_comp f g args]
  | .matrixSelector .. => by
      rw [Expr.mapMatchers, Expr.mapMatchers, Expr.mapMatchers, List.map_map]
  | .subquery expr _ _ _ => by
      rw [Expr.mapMatchers, Expr.mapMatchers, Expr.mapMatchers, mapMatchers_comp f g expr]
  | .number _ => rfl
  | .paren expr => by
      rw [Expr.mapMatchers, Expr.mapMatchers, Expr.mapMatchers, mapMatchers_comp f g expr]
  | .string _ => rfl
  | .unary _ expr => by
      rw [Expr.mapMatchers, Expr.mapMatchers, Expr.mapMatchers, mapMatchers_comp f g expr]
  | .vectorSelector .. => by
      rw [Expr.mapMatchers, Expr.mapMatchers, Expr.mapMatchers, List.map_map]

theorem mapParam_comp (f g : Matcher → Matcher) :
    ∀ param : Option Expr, mapParam g (mapParam f param) = mapParam (g ∘ f) param
  | none => rfl
  | some expr => by rw [mapParam, mapParam, mapParam, mapMatchers_comp f g expr]

theorem mapArgs_comp (f g : Matcher → Matcher) : ∀ args :
    List Expr, mapArgs g (mapArgs f args) = mapArgs (g ∘ f) args
  | [] => rfl
  | arg :: args =>
      by rw [mapArgs, mapArgs, mapArgs, mapMatchers_comp f g arg, mapArgs_comp f g args]

end

mutual

theorem mapMatchers_id : ∀ e : Expr, e.mapMatchers id = e
  | .aggregate _ expr param _ _ => by rw [Expr.mapMatchers, mapMatchers_id expr, mapParam_id param]
  | .binary _ lhs rhs _ _ => by rw [Expr.mapMatchers, mapMatchers_id lhs, mapMatchers_id rhs]
  | .call _ args => by rw [Expr.mapMatchers, mapArgs_id args]
  | .matrixSelector .. => by rw [Expr.mapMatchers, List.map_id]
  | .subquery expr _ _ _ => by rw [Expr.mapMatchers, mapMatchers_id expr]
  | .number _ => rfl
  | .paren expr => by rw [Expr.mapMatchers, mapMatchers_id expr]
  | .string _ => rfl
  | .unary _ expr => by rw [Expr.mapMatchers, mapMatchers_id expr]
  | .vectorSelector .. => by rw [Expr.mapMatchers, List.map_id]

theorem mapParam_id : ∀ param : Option Expr, mapParam id param = param
  | none => rfl
  | some expr => by rw [mapParam, mapMatchers_id expr]

theorem mapArgs_id : ∀ args : List Expr, mapArgs id args = args
  | [] => rfl
  | arg :: args => by rw [mapArgs, mapMatchers_id arg, mapArgs_id args]

end

end changes

end walk

end LogCache.Promql
