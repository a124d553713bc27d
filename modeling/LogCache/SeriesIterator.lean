import LogCache.SelectOrders
import LogCache.SortSearch

namespace LogCache.SeriesIterator

open Envelopes MapOrders Promql SourceIds ReadPath Querier SeriesSets SelectOrders SortSearch

section iterator

structure Iterator where
  cur : Int
  series : ConcreteSeries

def newConcreteSeriersIterator (series : ConcreteSeries) : Iterator := ⟨-1, series⟩

def Iterator.seek (c : Iterator) (t : Int64) : Iterator × Bool :=
  let cur := search c.series.points.length fun n => decide (t ≤ (c.series.points.get n).t)
  ({ c with cur := cur }, decide (cur < c.series.points.length))

/-- `At`; `none` is the panic of an index out of range. -/
def Iterator.point (c : Iterator) : Option Point :=
  if c.cur < 0 then none else c.series.points[c.cur.toNat]?

def Iterator.next (c : Iterator) : Iterator × Bool :=
  ({ c with cur := c.cur + 1 }, decide (c.cur + 1 < c.series.points.length))

/-- The points that `At` returns, first and after each `Next`, until there is
none; `none` if that takes more than `fuel` steps or panics. -/
def enumerate : Nat → Iterator × Bool → Option (List Point)
  | 0, _ => none
  | _ + 1, (_, false) => some []
  | fuel + 1, (c, true) => do
      let p ← c.point
      let rest ← enumerate fuel c.next
      return p :: rest

variable {series : ConcreteSeries}

theorem next_natCast (cur : Nat) :
    (⟨cur, series⟩ : Iterator).next =
      (⟨(cur + 1 : Nat), series⟩, decide (((cur + 1 : Nat) : Int) < series.points.length)) := rfl

theorem point_natCast (cur : Nat) : (⟨cur, series⟩ : Iterator).point = series.points[cur]? :=
  if_neg (Int.not_lt.mpr (Int.natCast_nonneg cur))

theorem enumerate_eq (cur fuel : Nat) (hcur : cur ≤ series.points.length)
    (hfuel : series.points.length < cur + fuel) :
    enumerate fuel (⟨cur, series⟩, decide ((cur : Int) < series.points.length)) =
      some (series.points.drop cur) := by
  induction fuel generalizing cur with
  | zero => omega
  | succ fuel ih =>
      by_cases hlt : cur < series.points.length
      · rw [decide_eq_true (Int.ofNat_lt.mpr hlt), enumerate, point_natCast, next_natCast,
          ih (cur + 1) hlt (by omega), List.getElem?_eq_getElem hlt, List.drop_eq_getElem_cons hlt]
        rfl
      · rw [decide_eq_false (by omega), enumerate, List.drop_eq_nil_of_le (by omega)]

def Ascending (points : List Point) : Prop := points.Pairwise fun p p' => p.t ≤ p'.t

theorem later_of_le {points : List Point} (hpoints : Ascending points) (t : Int64)
    (k l : Fin points.length) (hkl : k ≤ l) (hk : decide (t ≤ (points.get k).t) = true) :
    decide (t ≤ (points.get l).t) = true := by
  rw [decide_eq_true_eq] at hk ⊢
  rcases eq_or_lt_of_le hkl with rfl | hlt
  · exact hk
  · exact hk.trans (List.pairwise_iff_get.mp hpoints k l hlt)

theorem seek_eq (hpoints : Ascending series.points) (cur : Int) (t : Int64) :
    ∃ first : Nat, first ≤ series.points.length ∧
      (⟨cur, series⟩ : Iterator).seek t = (⟨first, series⟩,
        decide ((first : Int) < series.points.length)) ∧
      series.points.filter (fun p => decide (t ≤ p.t)) = series.points.drop first := by
  have hmono := later_of_le hpoints t
  refine ⟨search series.points.length fun n => decide (t ≤ (series.points.get n).t),
    search_le hmono, ?_, filter_eq_drop _ _ _ (search_le_iff hmono)⟩
  simp [Iterator.seek]

theorem seek_spec (hpoints : Ascending series.points) (cur : Int) (t : Int64) :
    (((⟨cur, series⟩ : Iterator).seek t).2 = true ↔ ∃ p ∈ series.points, t ≤ p.t) ∧
      ∀ fuel, series.points.length < fuel →
        enumerate fuel ((⟨cur, series⟩ : Iterator).seek t) =
          some (series.points.filter fun p => decide (t ≤ p.t)) := by
  obtain ⟨first, hle, hseek, hfilter⟩ := seek_eq hpoints cur t
  rw [hseek, hfilter]
  constructor
  · have hne : first < series.points.length ↔
        series.points.filter (fun p => decide (t ≤ p.t)) ≠ [] := by
      rw [hfilter, ne_eq, List.drop_eq_nil_iff, Nat.not_le]
    simp only [decide_eq_true_eq, Int.ofNat_lt, hne, ne_eq, List.filter_eq_nil_iff, not_forall,
      not_not, exists_prop]
  · intro fuel hfuel
    exact enumerate_eq first fuel hle (by omega)

end iterator

section times

def floorMillis (t : Int) : Int := t / 10 ^ 9 * 1000

theorem floorMillis_mono {t t' : Int} (h : t ≤ t') : floorMillis t ≤ floorMillis t' := by
  rw [floorMillis, floorMillis]
  omega

theorem toInt_truncate_second {t : Int64} (ht : -2 ^ 63 + 10 ^ 9 ≤ t.toInt) :
    (truncate 1000000000 t / 1000000).toInt = floorMillis t.toInt := by
  have hlt := t.toInt_lt
  have hmod : ((t.toInt + 62135596800 * 10 ^ 9) % (1000000000 : Int64).toInt) =
      t.toInt % 10 ^ 9 := by
    rw [show (1000000000 : Int64).toInt = 10 ^ 9 from rfl]
    omega
  have htruncate : (truncate 1000000000 t).toInt = t.toInt / 10 ^ 9 * 10 ^ 9 := by
    rw [truncate, if_neg (by decide), hmod, Int64.toInt_sub,
      Int64.toInt_ofInt_of_le (by omega) (by omega), Int.bmod_eq_of_le (by omega) (by omega)]
    omega
  have hmul : t.toInt / 10 ^ 9 * 10 ^ 9 = t.toInt / 10 ^ 9 * 1000 * 10 ^ 6 := by omega
  rw [Int64.toInt_div, htruncate, show (1000000 : Int64).toInt = 10 ^ 6 from rfl, floorMillis, hmul,
    Int.mul_tdiv_cancel _ (by decide), Int.bmod_eq_of_le (by omega) (by omega)]

variable {q : LogCacheQuerier} {orders : Orders} {selection : Selection}

theorem time_pointFor (hinterval : q.interval = 1000000000) {seriesID : String}
    {e : Envelope} {p : Point} (hp : pointFor q orders selection seriesID e = some p)
    (he : -2 ^ 63 + 10 ^ 9 ≤ e.timestamp.toInt) :
    p.t.toInt = floorMillis e.timestamp.toInt := by
  obtain ⟨x, hx, hpoint⟩ := Option.bind_eq_some_iff.mp hp
  rw [contribution] at hx
  split_ifs at hx
  obtain ⟨f, _, rfl⟩ := Option.map_eq_some_iff.mp hx
  split_ifs at hpoint
  cases hpoint
  rw [hinterval]
  exact toInt_truncate_second he

theorem times_filterMap (hinterval : q.interval = 1000000000) (seriesID : String)
    (batch : List Envelope) (hroom : ∀ e ∈ batch, -2 ^ 63 + 10 ^ 9 ≤ e.timestamp.toInt) :
    (batch.filterMap (pointFor q orders selection seriesID)).map (fun p => p.t.toInt) =
      (batch.filter fun e => (pointFor q orders selection seriesID e).isSome).map fun e =>
        floorMillis e.timestamp.toInt := by
  induction batch with
  | nil => rfl
  | cons e batch ih =>
      obtain ⟨he, hbatch⟩ := List.forall_mem_cons.mp hroom
      cases hp : pointFor q orders selection seriesID e with
      | none =>
          rw [List.filterMap_cons_none hp, List.filter_cons_of_neg (by simp [hp])]
          exact ih hbatch
      | some p =>
          rw [List.filterMap_cons_some hp, List.filter_cons_of_pos (by simp [hp]), List.map_cons,
            List.map_cons, time_pointFor hinterval hp he, ih hbatch]

theorem ascending_of_times {points : List Point} {es : List Envelope}
    (htimes : points.map (fun p => p.t.toInt) = es.map fun e => floorMillis e.timestamp.toInt)
    (hes : es.Pairwise fun e e' => e.timestamp ≤ e'.timestamp) : Ascending points := by
  have hfloor : (es.map fun e => floorMillis e.timestamp.toInt).Pairwise (· ≤ ·) :=
    List.pairwise_map.mpr (hes.imp fun h => floorMillis_mono (Int64.le_iff_toInt_le.mp h))
  rw [← htimes, List.pairwise_map] at hfloor
  exact hfloor.imp fun h => Int64.le_iff_toInt_le.mpr h

end times

section select

theorem points_of_mem_buildSeriesSet {order : SyncMap.RangeOrder String SeriesData}
    {labelOrder : MapOrder String} {adds : List Addition} {series : ConcreteSeries}
    (h : series ∈ buildSeriesSet order labelOrder (addAll ∅ adds)) :
    ∃ seriesID, series.points = (withID seriesID adds).map Prod.snd := by
  rw [buildSeriesSet] at h
  obtain ⟨⟨seriesID, d⟩, hp, rfl⟩ := List.mem_map.mp h
  have hd := SyncMap.mem_entries.mp ((order.perm _).mem_iff.mp hp)
  rw [lookup_addAll, AList.lookup_empty] at hd
  refine ⟨seriesID, ?_⟩
  cases hadds : withID seriesID adds with
  | nil => rw [hadds] at hd; cases hd
  | cons x xs =>
      rw [hadds] at hd
      cases hd
      rfl

/-- A series that is selected from one sorted source is sorted, with the times
of its envelopes cut to the second, and its iterator finds any time. -/
theorem select_seekable (dataReader : ReadRequest → Except String (List Envelope))
    (mint maxt : Int64) (orders : Orders) (ll : List Matcher) (sourceID : String)
    (batch : List Envelope) (hone : (selectMatchers ll).sourceIDs.entries = [⟨sourceID, ()⟩])
    (hread : dataReader (request (querier 1000000000 dataReader mint maxt) sourceID) = .ok batch)
    (hsorted : batch.Pairwise fun e e' => e.timestamp ≤ e'.timestamp)
    (hroom : ∀ e ∈ batch, -2 ^ 63 + 10 ^ 9 ≤ e.timestamp.toInt) :
    ∃ set, select (querier 1000000000 dataReader mint maxt) orders ll = .ok set ∧
      ∀ series ∈ set,
        Ascending series.points ∧
        (∃ es : List Envelope, es.Sublist batch ∧
          series.points.map (fun p => p.t.toInt) = es.map fun e => floorMillis e.timestamp.toInt) ∧
        ∀ (cur : Int) (t : Int64),
          (((⟨cur, series⟩ : Iterator).seek t).2 = true ↔ ∃ p ∈ series.points, t ≤ p.t) ∧
          ∀ fuel, series.points.length < fuel →
            enumerate fuel ((⟨cur, series⟩ : Iterator).seek t) =
              some (series.points.filter fun p => decide (t ≤ p.t)) := by
  have hanswer : answer (querier 1000000000 dataReader mint maxt) sourceID = batch := by
    rw [answer]
    change (dataReader (request (querier 1000000000 dataReader mint maxt) sourceID)).toOption.getD
      [] = batch
    rw [hread]
    rfl
  have hvisited : visited orders ll = [sourceID] := by
    have hperm := visited_perm orders ll
    rw [AList.keys, hone] at hperm
    exact List.perm_singleton.mp hperm
  have hfails : ∀ s ∈ (selectMatchers ll).sourceIDs,
      ¬ Fails (querier 1000000000 dataReader mint maxt) s := by
    rintro s hs ⟨err, herr⟩
    obtain rfl : s = sourceID := by
      have hmem : s ∈ visited orders ll := mem_visited.mpr hs
      rw [hvisited] at hmem
      exact List.mem_singleton.mp hmem
    change dataReader _ = _ at herr
    rw [hread] at herr
    cases herr
  refine ⟨_, select_eq ll (by simp [hone]) hfails orders, ?_⟩
  intro series hseries
  obtain ⟨seriesID, hpoints⟩ := points_of_mem_buildSeriesSet hseries
  rw [hvisited, List.flatMap_singleton, additions, hanswer, points_withID] at hpoints
  have htimes := @times_filterMap (querier 1000000000 dataReader mint maxt) orders
      (selectMatchers ll) rfl seriesID
    batch hroom
  rw [← hpoints] at htimes
  have hascending := ascending_of_times htimes (hsorted.sublist List.filter_sublist)
  exact ⟨hascending, ⟨_, List.filter_sublist, htimes⟩, seek_spec hascending⟩

def counted (timestamp : Int64) : Envelope := ⟨timestamp, "a", "", ∅, ∅, .counter "requests" 1 1⟩

theorem select_seekable_counters :
    ∃ set, select (querier 1000000000 (fun _ => .ok [counted (-1), counted 1]) 0 0) .any
        [⟨.equal, "__name__", "requests"⟩, ⟨.equal, "source_id", "a"⟩] = .ok set ∧
      ∀ series ∈ set, enumerate 9 ((newConcreteSeriersIterator series).seek 0) =
        some (series.points.filter fun p => decide (0 ≤ p.t)) := by
  obtain ⟨set, hset, hall⟩ := select_seekable (fun _ => .ok [counted (-1), counted 1]) 0 0 .any
    [⟨.equal, "__name__", "requests"⟩, ⟨.equal, "source_id", "a"⟩] "a" [counted (-1), counted 1]
    (by decide) rfl
    (by decide) (by decide)
  refine ⟨set, hset, fun series hseries => ?_⟩
  obtain ⟨_, ⟨es, hes, htimes⟩, hseek⟩ := hall series hseries
  have hlength : series.points.length ≤ 2 := by
    rw [← List.length_map (fun p : Point => p.t.toInt), htimes, List.length_map]
    exact hes.length_le
  exact (hseek (-1) 0).2 9 (by omega)

end select

end LogCache.SeriesIterator
