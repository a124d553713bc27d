import Mathlib.Data.List.Perm.Basic
import Mathlib.Order.Lattice

namespace LogCache.Selections

section through

variable {α β : Type} (p : α → Bool)

/-- The list up to the first element that passes the test, which is taken
too. -/
def through : List α → List α
  | [] => []
  | x :: xs => if p x then [x] else x :: through xs

variable {p}

theorem through_initial (p : α → Bool) (xs : List α) : through p xs <+: xs := by
  induction xs with
  | nil => exact List.prefix_rfl
  | cons x xs ih =>
      rw [through]
      split_ifs
      · exact List.prefix_cons_inj x |>.mpr List.nil_prefix
      · exact List.prefix_cons_inj x |>.mpr ih

theorem through_append {xs : List α} (h : ∀ x ∈ xs, p x = false) (ys : List α) :
    through p (xs ++ ys) = xs ++ through p ys := by
  induction xs with
  | nil => rfl
  | cons x xs ih =>
      rw [List.cons_append, through, h x List.mem_cons_self, List.cons_append,
        ih fun y hy => h y (List.mem_cons_of_mem _ hy)]
      rfl

theorem through_cons_of_pos {x : α} (h : p x = true) (xs : List α) : through p (x :: xs) = [x] := by
  rw [through, if_pos h]

theorem through_cons (p : α → Bool) (x : α) (xs : List α) :
    ∃ ys, through p (x :: xs) = x :: ys := by
  rw [through]
  split_ifs
  · exact ⟨[], rfl⟩
  · exact ⟨_, rfl⟩

theorem through_idem (p : α → Bool) (xs : List α) : through p (through p xs) = through p xs := by
  induction xs with
  | nil => rfl
  | cons x xs ih =>
      cases hx : p x with
      | true => rw [through_cons_of_pos hx, through_cons_of_pos hx]
      | false =>
          rw [through, hx, if_neg Bool.false_ne_true, through, hx, if_neg Bool.false_ne_true, ih]

theorem through_before {xs ys zs : List α} {x : α} (h : through p xs = ys ++ x :: zs) :
    ∀ y ∈ ys, p y = false := by
  induction xs generalizing ys with
  | nil => exact absurd h (List.append_ne_nil_of_right_ne_nil _ (List.cons_ne_nil _ _)).symm
  | cons a xs ih =>
      rw [through] at h
      cases ys with
      | nil => exact fun y hy => (by cases hy)
      | cons b ys =>
          split_ifs at h with ha
          · have hnil := (List.cons.inj h).2
            exact absurd hnil (List.append_ne_nil_of_right_ne_nil _ (List.cons_ne_nil _ _)).symm
          · obtain ⟨rfl, htail⟩ := List.cons.inj h
            intro y hy
            rcases List.mem_cons.mp hy with rfl | hy
            · exact Bool.eq_false_iff.mpr ha
            · exact ih htail y hy

theorem through_last {xs rest : List α} (h : xs = through p xs ++ rest) (hrest : rest ≠ []) :
    ∃ ys x, through p xs = ys ++ [x] ∧ p x = true := by
  induction xs with
  | nil => exact absurd (List.append_eq_nil_iff.mp h.symm).2 hrest
  | cons a xs ih =>
      cases ha : p a with
      | true => exact ⟨[], a, through_cons_of_pos ha xs, ha⟩
      | false =>
          rw [through, ha, if_neg Bool.false_ne_true, List.cons_append] at h
          obtain ⟨ys, x, hys, hx⟩ := ih (List.cons.inj h).2
          refine ⟨a :: ys, x, ?_, hx⟩
          rw [through, ha, if_neg Bool.false_ne_true, hys, List.cons_append]

theorem through_rest {xs ys rest : List α} {x : α}
    (h : xs ++ x :: ys = through p (xs ++ x :: ys) ++ rest) (hx : p x = true) :
    ∃ zs, rest = zs ++ ys := by
  induction xs with
  | nil =>
      rw [List.nil_append, through_cons_of_pos hx] at h
      exact ⟨[], (List.cons.inj h).2.symm⟩
  | cons a xs ih =>
      rw [List.cons_append, through] at h
      split_ifs at h
      · refine ⟨xs ++ [x], ?_⟩
        rw [List.append_assoc]
        exact (List.cons.inj h).2.symm
      · exact ih (List.cons.inj h).2

theorem exists_nth {f : α → Option β} {xs : List α} {n : Nat} (hpos : 1 ≤ n)
    (hn : n ≤ (xs.filterMap f).length) :
    ∃ before x after, xs = before ++ x :: after ∧ (f x).isSome = true ∧
      (before.filterMap f).length + 1 = n := by
  induction xs generalizing n with
  | nil =>
      rw [List.filterMap_nil, List.length_nil] at hn
      omega
  | cons x xs ih =>
      cases hx : f x with
      | none =>
          rw [List.filterMap_cons_none hx] at hn
          obtain ⟨before, y, after, rfl, hy, hlen⟩ := ih hpos hn
          exact ⟨x :: before, y, after, rfl, hy, by rwa [List.filterMap_cons_none hx]⟩
      | some b =>
          rw [List.filterMap_cons_some hx, List.length_cons] at hn
          rcases hpos.eq_or_lt with rfl | hlt
          · exact ⟨[], x, xs, rfl, by rw [hx]; rfl, rfl⟩
          · obtain ⟨before, y, after, rfl, hy, hlen⟩ := @ih (n - 1) (by omega) (by omega)
            refine ⟨x :: before, y, after, rfl, hy, ?_⟩
            rw [List.filterMap_cons_some hx, List.length_cons]
            omega

end through

section sorted

theorem le_of_getLast? {α κ : Type} [Preorder κ] {key : α → κ} {xs : List α} {last : α}
    (hsorted : xs.Pairwise fun x y => key x ≤ key y) (hlast : xs.getLast? = some last) :
    ∀ x ∈ xs, key x ≤ key last := by
  obtain ⟨ys, rfl⟩ := List.getLast?_eq_some_iff.mp hlast
  intro x hx
  rcases List.mem_append.mp hx with hx | hx
  · exact (List.pairwise_append.mp hsorted).2.2 x hx last (List.mem_singleton_self last)
  · rw [List.mem_singleton.mp hx]

end sorted

section newest

variable {α κ : Type} [LinearOrder κ] {key : α → κ} {n : Nat} {xs kept : List α}

variable (key) in
/-- `kept` are the `n` elements of `xs` with the largest keys, or all of them
if there are no more than `n`. -/
structure Newest (n : Nat) (xs kept : List α) : Prop where
  length : kept.length = min n xs.length
  dropped : ∃ dropped, xs.Perm (kept ++ dropped) ∧ ∀ x ∈ kept, ∀ y ∈ dropped, key y < key x

theorem Newest.of_perm (hperm : xs.Perm kept) (hlength : xs.length ≤ n) : Newest key n xs kept where
  length := by rw [min_eq_right hlength, hperm.length_eq]
  dropped := ⟨[], by rwa [List.append_nil], fun _ _ _ hy => by cases hy⟩

theorem Newest.perm (h : Newest key n xs kept) (hlength : xs.length ≤ n) : xs.Perm kept := by
  obtain ⟨dropped, hperm, _⟩ := h.dropped
  have hlen := hperm.length_eq
  rw [List.length_append, h.length, min_eq_right hlength] at hlen
  have hnil : dropped = [] := List.eq_nil_of_length_eq_zero (by omega)
  rwa [hnil, List.append_nil] at hperm

/-- One more element, and the least of those at hand goes: what is left are
the newest again, wherever the new element stands. -/
theorem Newest.snoc (h : Newest key n xs kept) (hfull : n ≤ xs.length) {x least : α} {rest : List α}
    (hperm : (least :: rest).Perm (x :: kept)) (hleast : ∀ y ∈ rest, key least < key y) :
    Newest key n (xs ++ [x]) rest := by
  obtain ⟨dropped, hxs, hnewer⟩ := h.dropped
  have hlength : rest.length = n := by
    have hlen := hperm.length_eq
    have := h.length
    rw [List.length_cons, List.length_cons] at hlen
    omega
  refine ⟨?_, least :: dropped, ?_, ?_⟩
  · rw [hlength, List.length_append, List.length_singleton]
    omega
  · calc (xs ++ [x]).Perm (x :: xs) := List.perm_append_singleton x xs
      _ |>.Perm (x :: (kept ++ dropped)) := hxs.cons x
      _ |>.Perm (least :: rest ++ dropped) := hperm.symm.append_right dropped
      _ |>.Perm (rest ++ least :: dropped) := List.perm_middle.symm
  · intro y hy z hz
    rcases List.mem_cons.mp hz with rfl | hz
    · exact hleast y hy
    · rcases List.mem_cons.mp (hperm.mem_iff.mp (List.mem_cons_of_mem _ hy)) with rfl | hkept
      · -- the new element is above the least one, which was kept and so above the dropped ones
        have hlt := hleast y hy
        rcases List.mem_cons.mp (hperm.mem_iff.mp List.mem_cons_self) with heq | hkept
        · exact absurd hlt (heq ▸ lt_irrefl _)
        · exact (hnewer least hkept z hz).trans hlt
      · exact hnewer y hkept z hz

theorem Newest.mem (h : Newest key n xs kept) {x : α} (hx : x ∈ xs)
    (hfew : (xs.filter fun y => key x < key y).length < n) : x ∈ kept := by
  obtain ⟨dropped, hperm, hnewer⟩ := h.dropped
  rcases List.mem_append.mp (hperm.mem_iff.mp hx) with hkept | hdropped
  · exact hkept
  · have hall : kept.filter (fun y => key x < key y) = kept := by
      apply List.filter_eq_self.mpr
      exact fun y hy => decide_eq_true (hnewer y hy x hdropped)
    have hlen := (hperm.filter fun y => key x < key y).length_eq
    rw [List.filter_append, hall, List.length_append, h.length] at hlen
    have hpos := hperm.length_eq
    rw [List.length_append, h.length] at hpos
    have := List.length_pos_of_mem hdropped
    omega

end newest

section filterMap

variable {α β : Type} {f g : α → Option β} {xs : List α}

theorem filterMap_pointwise (hsome : ∀ x ∈ xs, (f x).isSome = (g x).isSome)
    (h : xs.filterMap f = xs.filterMap g) :
    ∀ x ∈ xs, f x = g x := by
  induction xs with
  | nil => exact fun x hx => absurd hx List.not_mem_nil
  | cons x xs ih =>
      obtain ⟨hhead, htail⟩ := List.forall_mem_cons.mp hsome
      cases hf : f x with
      | none =>
          have hg : g x = none := by
            rw [hf] at hhead
            exact Option.isNone_iff_eq_none.mp (Option.isSome_eq_false_iff.mp hhead.symm)
          rw [List.filterMap_cons_none hf, List.filterMap_cons_none hg] at h
          exact List.forall_mem_cons.mpr ⟨hf.trans hg.symm, ih htail h⟩
      | some b =>
          rw [hf] at hhead
          obtain ⟨c, hg⟩ := Option.isSome_iff_exists.mp hhead.symm
          rw [List.filterMap_cons_some hf, List.filterMap_cons_some hg] at h
          obtain ⟨rfl, hrest⟩ := List.cons.inj h
          exact List.forall_mem_cons.mpr ⟨hf.trans hg.symm, ih htail hrest⟩

end filterMap

theorem exists_perm_cons_cons {α : Type} [DecidableEq α] {xs : List α} {x y : α} (hx : x ∈ xs)
    (hy : y ∈ xs) (h : x ≠ y) : ∃ rest, xs.Perm (x :: y :: rest) := by
  have hy : y ∈ xs.erase x := (List.mem_erase_of_ne h.symm).mpr hy
  exact ⟨_, (List.perm_cons_erase hx).trans ((List.perm_cons_erase hy).cons x)⟩

end LogCache.Selections
