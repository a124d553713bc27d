import Mathlib.Data.List.Perm.Basic
import Mathlib.Order.WithBot

namespace LogCache.BinaryHeap

variable {α κ : Type} [LinearOrder κ] (key : α → κ)

def less (h : List α) (i j : Nat) : Bool :=
  match h[i]?, h[j]? with
  | some x, some y => key x < key y
  | _, _ => false

def swap (h : List α) (i j : Nat) : List α :=
  match h[i]?, h[j]? with
  | some x, some y => (h.set i y).set j x
  | _, _ => h

def up (h : List α) (j : Nat) : List α :=
  if hj : (j - 1) / 2 = j ∨ less key h j ((j - 1) / 2) = false then h
  else up (swap h ((j - 1) / 2) j) ((j - 1) / 2)
termination_by j
decreasing_by omega

/-- The child that `down` compares with: the right one if it is smaller. -/
def lesserChild (h : List α) (i n : Nat) : Nat :=
  if 2 * i + 2 < n ∧ less key h (2 * i + 2) (2 * i + 1) then 2 * i + 2 else 2 * i + 1

theorem lesserChild_bounds (h : List α) {i n : Nat} (hi : 2 * i + 1 < n) :
    i < lesserChild key h i n ∧ lesserChild key h i n < n ∧
      (lesserChild key h i n - 1) / 2 = i := by
  unfold lesserChild
  split_ifs <;> omega

def down (h : List α) (i n : Nat) : List α :=
  if n ≤ 2 * i + 1 then h
  else if less key h (lesserChild key h i n) i = false then h
  else down (swap h i (lesserChild key h i n)) (lesserChild key h i n) n
termination_by n - i
decreasing_by
  have := lesserChild_bounds key h (i := i) (n := n) (by omega)
  omega

def initLoop (h : List α) : Nat → List α
  | 0 => h
  | i + 1 => initLoop (down key h i h.length) i

def init (h : List α) : List α := initLoop key h (h.length / 2)

def push (h : List α) (x : α) : List α := up key (h ++ [x]) h.length

/-- An empty heap has no index `-1` to swap with; `none` is that panic. -/
def pop (h : List α) : Option (α × List α) :=
  let h' := down key (swap h 0 (h.length - 1)) 0 (h.length - 1)
  match h'.getLast? with
  | none => none
  | some x => some (x, h'.dropLast)

def rank (h : List α) (i : Nat) : WithTop κ :=
  match h[i]? with
  | some x => key x
  | none => ⊤

def OrderedBelow (h : List α) (n : Nat) : Prop :=
  ∀ i, 0 < i → i < n → rank key h ((i - 1) / 2) ≤ rank key h i

def Ordered (h : List α) : Prop := OrderedBelow key h h.length

omit [LinearOrder κ] in
theorem rank_eq {h : List α} {i : Nat} {x : α} (hx : h[i]? = some x) : rank key h i = key x := by
  rw [rank, hx]

theorem less_iff {h : List α} {i j : Nat} (hi : i < h.length) (hj : j < h.length) :
    less key h i j = true ↔ rank key h i < rank key h j := by
  rw [less, rank_eq key (List.getElem?_eq_getElem hi), rank_eq key (List.getElem?_eq_getElem hj),
    List.getElem?_eq_getElem hi, List.getElem?_eq_getElem hj]
  simp only [decide_eq_true_eq, WithTop.coe_lt_coe]

theorem swap_eq {h : List α} {i j : Nat} (hi : i < h.length) (hj : j < h.length) :
    swap h i j = (h.set i h[j]).set j h[i] := by
  rw [swap, List.getElem?_eq_getElem hi, List.getElem?_eq_getElem hj]

theorem swap_perm (h : List α) (i j : Nat) : (swap h i j).Perm h := by
  by_cases hi : i < h.length
  · by_cases hj : j < h.length
    · rw [swap_eq hi hj]
      exact List.set_set_perm hi hj
    · rw [swap, List.getElem?_eq_none (not_lt.mp hj)]
      cases h[i]? <;> rfl
  · rw [swap, List.getElem?_eq_none (not_lt.mp hi)]

theorem length_swap (h : List α) (i j : Nat) : (swap h i j).length = h.length :=
  (swap_perm h i j).length_eq

theorem getElem?_swap {h : List α} {i j : Nat} (hi : i < h.length) (hj : j < h.length) (x : Nat) :
    (swap h i j)[x]? = if x = i then h[j]? else if x = j then h[i]? else h[x]? := by
  rw [swap_eq hi hj, List.getElem?_set, List.getElem?_set]
  simp only [List.length_set]
  by_cases hxj : j = x
  · subst hxj
    by_cases hxi : j = i
    · subst hxi; simp [hj]
    · simp [hxi, hj, hi]
  · by_cases hxi : i = x
    · subst hxi; simp [hxj, hi, hj]
    · simp [hxj, hxi, Ne.symm hxj, Ne.symm hxi]

omit [LinearOrder κ] in
theorem rank_swap {h : List α} {i j : Nat} (hi : i < h.length) (hj : j < h.length) (x : Nat) :
    rank key (swap h i j) x = if x = i then rank key h j else if x = j then rank key h i
      else rank key h x := by
  rw [rank, getElem?_swap hi hj]
  split_ifs <;> rfl

/-- The only edge that may be out of order enters `j`, and the parent of `j`
is below the children of `j`. -/
structure UpReady (h : List α) (j : Nat) : Prop where
  bound : j < h.length
  edges : ∀ i, 0 < i → i < h.length → i ≠ j → rank key h ((i - 1) / 2) ≤ rank key h i
  grand : 0 < j → ∀ i, 0 < i → i < h.length → (i - 1) / 2 = j →
    rank key h ((j - 1) / 2) ≤ rank key h i

/-- The only edges that may be out of order leave `i`, and the parent of `i`
is below the children of `i`. -/
structure DownReady (h : List α) (i n : Nat) : Prop where
  bound : n ≤ h.length
  edges : ∀ x, 0 < x → x < n → (x - 1) / 2 ≠ i → rank key h ((x - 1) / 2) ≤ rank key h x
  grand : 0 < i → ∀ x, 0 < x → x < n → (x - 1) / 2 = i → rank key h ((i - 1) / 2) ≤ rank key h x

variable {key}

theorem UpReady.swap {h : List α} {j : Nat} (hr : UpReady key h j) (hj : 0 < j)
    (hl : rank key h j < rank key h ((j - 1) / 2)) :
    UpReady key (swap h ((j - 1) / 2) j) ((j - 1) / 2) := by
  have hb := hr.bound
  have hp : (j - 1) / 2 < h.length := by omega
  have hrank := rank_swap key hp hb
  constructor
  · rw [length_swap]; exact hp
  · intro i hi hil hne
    rw [length_swap] at hil
    rw [hrank, hrank, if_neg hne]
    by_cases hij : i = j
    · subst hij
      rw [if_pos rfl, if_pos rfl]
      exact hl.le
    · rw [if_neg hij]
      have he := hr.edges i hi hil hij
      split_ifs with h1 h2
      · rw [h1] at he; exact hl.le.trans he
      · exact hr.grand hj i hi hil h2
      · exact he
  · intro hp0 i hi hil hpi
    rw [length_swap] at hil
    rw [hrank, hrank, if_neg (by omega), if_neg (by omega), if_neg (by omega)]
    have he := hr.edges ((j - 1) / 2) hp0 hp (by omega)
    split_ifs with h1
    · exact he
    · have he' := hr.edges i hi hil h1
      rw [hpi] at he'
      exact he.trans he'

theorem up_perm (h : List α) (j : Nat) : (up key h j).Perm h := by
  induction h, j using up.induct key with
  | case1 h j hc => rw [up, dif_pos hc]
  | case2 h j hc ih =>
      rw [up, dif_neg hc]
      exact ih.trans (swap_perm _ _ _)

theorem up_ordered (h : List α) (j : Nat) (hr : UpReady key h j) : Ordered key (up key h j) := by
  induction h, j using up.induct key with
  | case1 h j hc =>
      rw [up, dif_pos hc]
      intro i hi hil
      by_cases hij : i = j
      · subst hij
        have hless : less key h i ((i - 1) / 2) = false := hc.resolve_left (by omega)
        have := (less_iff key hil (by omega : (i - 1) / 2 < h.length)).not.mp (by simp [hless])
        exact not_lt.mp this
      · exact hr.edges i hi hil hij
  | case2 h j hc ih =>
      rw [up, dif_neg hc]
      rw [not_or, Bool.not_eq_false] at hc
      have hb := hr.bound
      exact ih (hr.swap (by omega) ((less_iff key hb (by omega)).mp hc.2))

theorem push_perm (h : List α) (x : α) : (push key h x).Perm (x :: h) :=
  (up_perm _ _).trans (List.perm_append_singleton x h)

omit [LinearOrder κ] in
theorem rank_append {h : List α} (x : α) {i : Nat} (hi : i < h.length) :
    rank key (h ++ [x]) i = rank key h i := by
  rw [rank, rank, List.getElem?_append_left hi]

theorem push_ordered {h : List α} (ho : Ordered key h) (x : α) : Ordered key (push key h x) := by
  refine up_ordered _ _ ⟨by simp, ?_, ?_⟩
  · intro i hi hil hne
    rw [List.length_append, List.length_singleton] at hil
    rw [rank_append x (by omega), rank_append x (by omega)]
    exact ho i hi (by omega)
  · intro _ i hi hil hpi
    rw [List.length_append, List.length_singleton] at hil
    omega

theorem lesserChild_le {h : List α} {i n : Nat} (hn : n ≤ h.length) {x : Nat} (hx0 : 0 < x)
    (hx : x < n) (hp : (x - 1) / 2 = i) : rank key h (lesserChild key h i n) ≤ rank key h x := by
  have hx' : x = 2 * i + 1 ∨ x = 2 * i + 2 := by omega
  by_cases hr : 2 * i + 2 < n
  · have hlt := less_iff key (h := h) (i := 2 * i + 2) (j := 2 * i + 1) (by omega) (by omega)
    by_cases hl : less key h (2 * i + 2) (2 * i + 1) = true
    · rw [lesserChild, if_pos ⟨hr, hl⟩]
      rcases hx' with rfl | rfl
      · exact (hlt.mp hl).le
      · exact le_rfl
    · rw [lesserChild, if_neg (fun h => hl h.2)]
      rcases hx' with rfl | rfl
      · exact le_rfl
      · exact not_lt.mp (hlt.not.mp hl)
  · rw [lesserChild, if_neg (fun h => hr h.1), show x = 2 * i + 1 by omega]

theorem DownReady.swap {h : List α} {i c n : Nat} (hr : DownReady key h i n) (hic : i < c)
    (hcn : c < n) (hc : (c - 1) / 2 = i)
    (hmin : ∀ x, 0 < x → x < n → (x - 1) / 2 = i → rank key h c ≤ rank key h x)
    (hl : rank key h c < rank key h i) : DownReady key (swap h i c) c n := by
  have hb := hr.bound
  have hrank := rank_swap key (h := h) (i := i) (j := c) (by omega) (by omega)
  constructor
  · rw [length_swap]; exact hb
  · intro x hx0 hxn hpx
    rw [hrank, hrank]
    by_cases hxi : x = i
    · subst hxi
      rw [if_neg (by omega), if_neg (by omega), if_pos rfl]
      exact hr.grand hx0 c (by omega) hcn hc
    · by_cases hxc : x = c
      · subst hxc
        rw [if_pos hc, if_neg hxi, if_pos rfl]
        exact hl.le
      · rw [if_neg hpx, if_neg hxi, if_neg hxc]
        split_ifs with hpi
        · exact hmin x hx0 hxn hpi
        · exact hr.edges x hx0 hxn hpi
  · intro _ x hx0 hxn hpx
    rw [hrank, hrank, if_pos hc, if_neg (by omega), if_neg (by omega)]
    have he := hr.edges x hx0 hxn (by omega)
    rwa [hpx] at he

theorem down_perm (h : List α) (i n : Nat) : (down key h i n).Perm h := by
  induction h, i using down.induct key n with
  | case1 h i hc => rw [down, if_pos hc]
  | case2 h i hc hl => rw [down, if_neg hc, if_pos hl]
  | case3 h i hc hl ih =>
      rw [down, if_neg hc, if_neg hl]
      exact ih.trans (swap_perm _ _ _)

theorem getElem?_down (h : List α) (i n : Nat) (hn : n ≤ h.length) {x : Nat} (hx : n ≤ x) :
    (down key h i n)[x]? = h[x]? := by
  induction h, i using down.induct key n with
  | case1 h i hc => rw [down, if_pos hc]
  | case2 h i hc hl => rw [down, if_neg hc, if_pos hl]
  | case3 h i hc hl ih =>
      obtain ⟨h1, h2, _⟩ := lesserChild_bounds key h (i := i) (n := n) (by omega)
      rw [down, if_neg hc, if_neg hl, ih (by rw [length_swap]; exact hn),
        getElem?_swap (by omega) (by omega), if_neg (by omega), if_neg (by omega)]

theorem down_ordered (h : List α) (i n : Nat) (hr : DownReady key h i n) :
    OrderedBelow key (down key h i n) n := by
  induction h, i using down.induct key n with
  | case1 h i hc =>
      rw [down, if_pos hc]
      exact fun x hx0 hxn => hr.edges x hx0 hxn (by omega)
  | case2 h i hc hl =>
      rw [down, if_neg hc, if_pos hl]
      have hb := hr.bound
      obtain ⟨h1, h2, _⟩ := lesserChild_bounds key h (i := i) (n := n) (by omega)
      have hless := less_iff key (h := h) (i := lesserChild key h i n) (j := i)
          (by omega) (by omega)
      have hle := not_lt.mp (hless.not.mp (by simp [hl]))
      intro x hx0 hxn
      by_cases hpx : (x - 1) / 2 = i
      · rw [hpx]; exact hle.trans (lesserChild_le hb hx0 hxn hpx)
      · exact hr.edges x hx0 hxn hpx
  | case3 h i hc hl ih =>
      rw [down, if_neg hc, if_neg hl]
      rw [Bool.not_eq_false] at hl
      have hb := hr.bound
      obtain ⟨h1, h2, h3⟩ := lesserChild_bounds key h (i := i) (n := n) (by omega)
      exact ih (hr.swap h1 h2 h3 (fun x => lesserChild_le hb)
        ((less_iff key (by omega) (by omega)).mp hl))

theorem rank_zero_le {h : List α} (ho : Ordered key h) (i : Nat) : rank key h 0 ≤ rank key h i := by
  induction i using Nat.strong_induction_on with
  | _ i ih =>
      by_cases hi : i < h.length
      · by_cases h0 : i = 0
        · rw [h0]
        · exact (ih _ (by omega)).trans (ho i (by omega) hi)
      · have ht : rank key h i = ⊤ := by rw [rank, List.getElem?_eq_none (not_lt.mp hi)]
        rw [ht]
        exact le_top

theorem pop_perm {h h' : List α} {x : α} (hp : pop key h = some (x, h')) : h.Perm (x :: h') := by
  have hperm : (down key (swap h 0 (h.length - 1)) 0 (h.length - 1)).Perm h :=
    (down_perm _ _ _).trans (swap_perm h 0 (h.length - 1))
  cases hlast : (down key (swap h 0 (h.length - 1)) 0 (h.length - 1)).getLast? with
  | none =>
      simp only [pop, hlast] at hp
      cases hp
  | some y =>
      simp only [pop, hlast] at hp
      cases hp
      rw [← List.dropLast_append_getLast? x (Option.mem_def.mpr hlast)] at hperm
      exact hperm.symm.trans (List.perm_append_singleton _ _)

theorem pop_nil : pop key ([] : List α) = none := by
  cases hp : pop key ([] : List α) with
  | none => rfl
  | some r => exact absurd (pop_perm hp) (List.not_perm_nil_cons _ _)

theorem pop_ne_none {h : List α} (hne : h ≠ []) : pop key h ≠ none := by
  have hperm : (down key (swap h 0 (h.length - 1)) 0 (h.length - 1)).Perm h :=
    (down_perm _ _ _).trans (swap_perm h 0 (h.length - 1))
  cases hlast : (down key (swap h 0 (h.length - 1)) 0 (h.length - 1)).getLast? with
  | none =>
      rw [List.getLast?_eq_none_iff.mp hlast] at hperm
      exact absurd (List.nil_perm.mp hperm) hne
  | some y =>
      simp only [pop, hlast]
      exact Option.some_ne_none _

theorem pop_spec {h : List α} (ho : Ordered key h) (hne : h ≠ []) :
    ∃ x h', pop key h = some (x, h') ∧ h.Perm (x :: h') ∧ Ordered key h' ∧
      ∀ y ∈ h, key x ≤ key y := by
  have hlen : 0 < h.length := List.length_pos_iff.mpr hne
  let n := h.length - 1
  let h₁ := swap h 0 n
  have hlen₁ : h₁.length = h.length := length_swap h 0 n
  have hrank := rank_swap key (h := h) (i := 0) (j := n) hlen (by omega)
  have hready : DownReady key h₁ 0 n := by
    constructor
    · omega
    · intro x hx0 hxn hpx
      rw [hrank, hrank, if_neg hpx, if_neg (by omega), if_neg (by omega), if_neg (by omega)]
      exact ho x hx0 (by omega)
    · intro h0; omega
  have hperm : (down key h₁ 0 n).Perm h := (down_perm h₁ 0 n).trans (swap_perm h 0 n)
  have hlast : (down key h₁ 0 n).getLast? = some h[0] := by
    rw [List.getLast?_eq_getElem?, hperm.length_eq, getElem?_down h₁ 0 n (by omega) le_rfl,
      getElem?_swap hlen (by omega)]
    have h0 : h[0]? = some h[0] := List.getElem?_eq_getElem hlen
    split_ifs with hn
    · have hn' : n = 0 := hn
      rw [hn', h0]
    · exact h0
    · exact absurd rfl ‹_›
  have hsplit := List.dropLast_append_getLast? h[0] (Option.mem_def.mpr hlast)
  have hpop : pop key h = some (h[0], (down key h₁ 0 n).dropLast) := by
    rw [pop]
    simp only [n, h₁] at hlast
    simp only [hlast, n, h₁]
  refine ⟨h[0], (down key h₁ 0 n).dropLast, hpop, pop_perm hpop, ?_, ?_⟩
  · have hdl : (down key h₁ 0 n).dropLast.length = n := by
      rw [List.length_dropLast, hperm.length_eq]
    have hd := down_ordered h₁ 0 n hready
    rw [← hsplit] at hd
    intro i hi0 hil
    rw [hdl] at hil
    have := hd i hi0 hil
    rwa [rank_append _ (by omega), rank_append _ (by omega)] at this
  · intro y hy
    obtain ⟨i, hi, rfl⟩ := List.getElem_of_mem hy
    have := rank_zero_le ho i
    rwa [rank_eq key (List.getElem?_eq_getElem hlen), rank_eq key (List.getElem?_eq_getElem hi),
      WithTop.coe_le_coe] at this

section map

variable {α β κ : Type} [LinearOrder κ] (key : β → κ) (f : α → β)

theorem less_map (h : List α) (i j : Nat) :
    less key (h.map f) i j = less (fun x => key (f x)) h i j := by
  rw [less, less, List.getElem?_map, List.getElem?_map]
  cases h[i]? with
  | none => rfl
  | some x => cases h[j]? <;> rfl

theorem swap_map (h : List α) (i j : Nat) : swap (h.map f) i j = (swap h i j).map f := by
  rw [swap, swap, List.getElem?_map, List.getElem?_map]
  cases h[i]? with
  | none => rfl
  | some x =>
      cases h[j]? with
      | none => rfl
      | some y => rw [List.map_set, List.map_set]; rfl

theorem up_map (h : List α) (j : Nat) :
    up key (h.map f) j = (up (fun x => key (f x)) h j).map f := by
  induction j using Nat.strong_induction_on generalizing h with
  | _ j ih =>
      conv_rhs => rw [up]
      rw [up, less_map]
      by_cases hj : (j - 1) / 2 = j ∨ less (fun x => key (f x)) h j ((j - 1) / 2) = false
      · rw [dif_pos hj, dif_pos hj]
      · rw [dif_neg hj, dif_neg hj, swap_map, ih _ (by omega)]

theorem lesserChild_map (h : List α) (i n : Nat) :
    lesserChild key (h.map f) i n = lesserChild (fun x => key (f x)) h i n := by
  rw [lesserChild, lesserChild, less_map]

theorem down_map (h : List α) (i n : Nat) :
    down key (h.map f) i n = (down (fun x => key (f x)) h i n).map f := by
  induction hm : n - i using Nat.strong_induction_on generalizing h i with
  | _ m ih =>
      conv_rhs => rw [down]
      rw [down, lesserChild_map, less_map]
      split_ifs with hn hless
      · rfl
      · rfl
      · have := lesserChild_bounds (fun x => key (f x)) h (not_le.mp hn)
        rw [swap_map, ih _ (by omega) _ _ rfl]

theorem push_map (h : List α) (x : α) :
    push key (h.map f) (f x) = (push (fun x => key (f x)) h x).map f := by
  rw [push, push, ← up_map, List.map_append, List.length_map]
  rfl

theorem pop_map (h : List α) :
    pop key (h.map f) = (pop (fun x => key (f x)) h).map fun p => (f p.1, p.2.map f) := by
  rw [pop, pop, List.length_map, swap_map, down_map]
  rw [List.getLast?_map, ← List.map_dropLast]
  cases (down (fun x => key (f x)) (swap h 0 (h.length - 1)) 0 (h.length - 1)).getLast? <;> rfl

end map

end LogCache.BinaryHeap
