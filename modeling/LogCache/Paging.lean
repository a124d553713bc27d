import Mathlib.Data.List.Basic

namespace LogCache.Paging

variable {α τ : Type} (limit : Nat) (stops due : α → Bool)

def Full (pre : List α) (x : α) : Prop := stops x ∧ limit ≤ (pre ++ [x]).countP due

def Open (xs : List α) : Prop := ∀ pre x post, xs = pre ++ x :: post → ¬ Full limit stops due pre x

/-- A page ends with the first element by which it is full. -/
def IsPage (xs : List α) : Prop :=
  ∃ pre x, xs = pre ++ [x] ∧ Open limit stops due pre ∧ Full limit stops due pre x

def TimesApart (time : α → τ) (xs ys : List α) : Prop :=
  ∀ u ∈ xs, ∀ w ∈ ys, due u → due w → time u ≠ time w

/-- However many pages are taken off, none shares a time with what is left. -/
def KeepsTimes (time : α → τ) (xs : List α) : Prop :=
  ∀ (pages : List (List α)) (rest : List α), xs = pages.flatten ++ rest →
    (∀ page ∈ pages, IsPage limit stops due page) → TimesApart due time pages.flatten rest

variable {limit stops due} {time : α → τ}

instance (pre : List α) (x : α) : Decidable (Full limit stops due pre x) :=
  inferInstanceAs (Decidable (_ ∧ _))

theorem open_nil : Open limit stops due ([] : List α) := by
  intro pre x post h
  simp at h

theorem Open.concat {xs : List α} {x : α} (h : Open limit stops due xs)
    (hx : ¬ Full limit stops due xs x) : Open limit stops due (xs ++ [x]) := by
  intro pre y post heq
  rcases List.eq_nil_or_concat post with rfl | ⟨post, z, rfl⟩
  · obtain ⟨rfl, hy⟩ := List.append_inj' heq rfl
    cases hy
    exact hx
  · rw [List.concat_eq_append, ← List.cons_append, ← List.append_assoc] at heq
    exact h pre y post (List.append_inj' heq rfl).1

theorem Open.dropLast {xs : List α} (h : Open limit stops due xs) :
    Open limit stops due xs.dropLast := by
  intro pre x post heq
  obtain ⟨last, hlast⟩ := List.dropLast_prefix xs
  rw [heq, List.append_assoc] at hlast
  exact h pre x (post ++ last) hlast.symm

theorem Open.mono {due' : α → Bool} {xs : List α} (h : Open limit stops due xs)
    (hdue : ∀ x ∈ xs, due' x → due x) : Open limit stops due' xs := by
  rintro pre x post rfl ⟨hstops, hfull⟩
  refine h pre x post rfl ⟨hstops, Nat.le_trans hfull (List.countP_mono_left fun y hy => ?_)⟩
  exact hdue y (List.mem_append.mpr ((List.mem_append.mp hy).imp_right fun hy => by
    rw [List.mem_singleton.mp hy]
    exact List.mem_cons_self))

theorem IsPage.congr {due' : α → Bool} {page : List α} (h : IsPage limit stops due page)
    (hdue : ∀ x ∈ page, due x = due' x) : IsPage limit stops due' page := by
  obtain ⟨pre, x, rfl, hopen, hstops, hfull⟩ := h
  refine ⟨pre, x, rfl, hopen.mono fun y hy => ?_, hstops, Nat.le_trans hfull (Nat.le_of_eq ?_)⟩
  · rw [hdue y (List.mem_append_left _ hy)]
    exact id
  · exact List.countP_congr fun y hy => by rw [hdue y hy]

theorem KeepsTimes.congr {due' : α → Bool} {xs : List α} (h : KeepsTimes limit stops due time xs)
    (hdue : ∀ x ∈ xs, due x = due' x) : KeepsTimes limit stops due' time xs := by
  rintro pages rest rfl hpages u hu w hw
  rw [← hdue u (List.mem_append_left _ hu), ← hdue w (List.mem_append_right _ hw)]
  refine h pages rest rfl (fun page hpage => (hpages page hpage).congr fun x hx => ?_) u hu w hw
  exact (hdue x (List.mem_append_left _ (List.mem_flatten.mpr ⟨page, hpage, hx⟩))).symm

theorem IsPage.length_le {page rest ys zs : List α} (hpage : IsPage limit stops due page)
    (hys : Open limit stops due ys.dropLast) (heq : page ++ rest = ys ++ zs) :
    ys.length ≤ page.length := by
  obtain ⟨pre, x, rfl, -, hfull⟩ := hpage
  by_contra hlt
  obtain ⟨post, rfl⟩ : ∃ post, ys = pre ++ [x] ++ post :=
    (List.prefix_of_prefix_length_le (List.prefix_append _ rest) (heq ▸ List.prefix_append _ zs)
      (Nat.le_of_not_le hlt)).imp fun _ h => h.symm
  have hpost : post ≠ [] := by
    rintro rfl
    simp at hlt
  refine hys pre x post.dropLast ?_ hfull
  rw [List.dropLast_append_of_ne_nil hpost, List.append_assoc]
  rfl

theorem IsPage.unique {page page' rest rest' : List α} (h : IsPage limit stops due page)
    (h' : IsPage limit stops due page') (heq : page ++ rest = page' ++ rest') :
    page = page' ∧ rest = rest' := by
  have hopen : ∀ page, IsPage limit stops due page → Open limit stops due page.dropLast := by
    rintro _ ⟨pre, x, rfl, hpre, -⟩
    rwa [List.dropLast_concat]
  exact List.append_inj heq
    (Nat.le_antisymm (h'.length_le (hopen page h) heq.symm) (h.length_le (hopen page' h') heq))

theorem IsPage.filter_ne_nil {page : List α} (h : IsPage limit stops due page)
    (hlimit : 0 < limit) :
    page.filter due ≠ [] := by
  obtain ⟨pre, x, rfl, -, -, hfull⟩ := h
  intro hnil
  rw [List.countP_eq_length_filter, hnil] at hfull
  exact absurd hfull (Nat.not_le.mpr hlimit)

theorem keepsTimes_page {page rest : List α} (hpage : IsPage limit stops due page) :
    KeepsTimes limit stops due time (page ++ rest) ↔
      TimesApart due time page rest ∧ KeepsTimes limit stops due time rest := by
  constructor
  · refine fun h => ⟨fun u hu w hw => ?_, fun pages rest' heq hpages u hu => ?_⟩
    · refine h [page] rest (by simp) (fun p hp => ?_) u (by simpa using hu) w hw
      rwa [List.mem_singleton.mp hp]
    · refine h (page :: pages) rest' (by rw [heq]; simp) ?_ u ?_
      · exact List.forall_mem_cons.mpr ⟨hpage, hpages⟩
      · exact List.mem_append_right _ hu
  · rintro ⟨hnow, hlater⟩ pages rest' heq hpages u hu w hw
    cases pages with
    | nil => cases hu
    | cons page' pages =>
        obtain ⟨hpage', hmore⟩ := List.forall_mem_cons.mp hpages
        rw [List.flatten_cons, List.append_assoc] at heq
        obtain ⟨rfl, rfl⟩ := hpage.unique hpage' heq
        rcases List.mem_append.mp hu with hu | hu
        · exact hnow u hu w (List.mem_append_right _ hw)
        · exact hlater pages rest' rfl hmore u hu w hw

theorem keepsTimes_of_open {ys zs : List α} (hys : Open limit stops due ys.dropLast)
    (hzs : ∀ z ∈ zs, due z = false) : KeepsTimes limit stops due time (ys ++ zs) := by
  intro pages rest heq hpages u hu w hw _ hdue
  cases pages with
  | nil => cases hu
  | cons page pages =>
      rw [List.flatten_cons, List.append_assoc] at heq
      have hlen := (hpages page List.mem_cons_self).length_le hys heq.symm
      obtain ⟨more, rfl⟩ : ∃ more, page = ys ++ more :=
        (List.prefix_of_prefix_length_le (List.prefix_append _ zs)
          (heq ▸ List.prefix_append _ _) hlen).imp fun _ h => h.symm
      rw [List.append_assoc, List.append_cancel_left_eq] at heq
      have hmem : w ∈ zs := by
        rw [heq]
        exact List.mem_append_right _ (List.mem_append_right _ hw)
      rw [hzs w hmem] at hdue
      cases hdue

theorem keepsTimes_of_not_due {xs : List α} (h : ∀ x ∈ xs, due x = false) :
    KeepsTimes limit stops due time xs := by
  rw [← List.nil_append xs]
  exact keepsTimes_of_open open_nil h

section skipped

variable {x : α}

theorem full_cons_iff (hx : due x = false) (pre : List α) (y : α) :
    Full limit stops due (x :: pre) y ↔ Full limit stops due pre y := by
  rw [Full, Full, List.cons_append, List.countP_cons_of_neg (by simp [hx])]

theorem open_cons_iff (hlimit : 0 < limit) (hx : due x = false) (pre : List α) :
    Open limit stops due (x :: pre) ↔ Open limit stops due pre := by
  constructor
  · intro h before y post heq hfull
    exact h (x :: before) y post (by rw [heq]; rfl) ((full_cons_iff hx before y).mpr hfull)
  · intro h before y post heq hfull
    cases before with
    | nil =>
        cases heq
        have hcount := hfull.2
        rw [List.nil_append, List.countP_singleton, hx] at hcount
        exact absurd hcount (Nat.not_le.mpr hlimit)
    | cons z before =>
        cases heq
        exact h before y post rfl ((full_cons_iff hx before y).mp hfull)

theorem isPage_cons_iff (hlimit : 0 < limit) (hx : due x = false) (page : List α) :
    IsPage limit stops due (x :: page) ↔ IsPage limit stops due page := by
  constructor
  · rintro ⟨pre, y, heq, hopen, hfull⟩
    cases pre with
    | nil =>
        cases heq
        have hcount := hfull.2
        rw [List.nil_append, List.countP_singleton, hx] at hcount
        exact absurd hcount (Nat.not_le.mpr hlimit)
    | cons z pre =>
        cases heq
        exact ⟨pre, y, rfl, (open_cons_iff hlimit hx pre).mp hopen,
          (full_cons_iff hx pre y).mp hfull⟩
  · rintro ⟨pre, y, rfl, hopen, hfull⟩
    exact ⟨x :: pre, y, rfl, (open_cons_iff hlimit hx pre).mpr hopen,
      (full_cons_iff hx pre y).mpr hfull⟩

theorem keepsTimes_cons_iff (hlimit : 0 < limit) (hx : due x = false) (xs : List α) :
    KeepsTimes limit stops due time (x :: xs) ↔ KeepsTimes limit stops due time xs := by
  constructor
  · intro h pages rest heq hpages u hu
    cases pages with
    | nil => cases hu
    | cons page pages =>
        obtain ⟨hpage, hpages⟩ := List.forall_mem_cons.mp hpages
        refine h ((x :: page) :: pages) rest (by rw [heq]; rfl) ?_ u (List.mem_cons_of_mem x hu)
        exact List.forall_mem_cons.mpr ⟨(isPage_cons_iff hlimit hx page).mpr hpage, hpages⟩
  · intro h pages rest heq hpages u hu w hw hdue
    cases pages with
    | nil => cases hu
    | cons page pages =>
        obtain ⟨hpage, hmore⟩ := List.forall_mem_cons.mp hpages
        cases page with
        | nil =>
            obtain ⟨pre, y, hnil, -⟩ := hpage
            simp at hnil
        | cons z page =>
            rw [List.flatten_cons, List.cons_append, List.cons_append, List.cons.injEq] at heq
            obtain ⟨rfl, rfl⟩ := heq
            rw [isPage_cons_iff hlimit hx] at hpage
            rcases List.mem_cons.mp hu with rfl | hu
            · rw [hx] at hdue
              cases hdue
            · exact h (page :: pages) rest rfl (List.forall_mem_cons.mpr ⟨hpage, hmore⟩) u hu w hw
                hdue

theorem keepsTimes_append_iff (hlimit : 0 < limit) {skipped : List α}
    (hskipped : ∀ x ∈ skipped, due x = false) (xs : List α) :
    KeepsTimes limit stops due time (skipped ++ xs) ↔ KeepsTimes limit stops due time xs := by
  induction skipped with
  | nil => rfl
  | cons x skipped ih =>
      obtain ⟨hx, hskipped⟩ := List.forall_mem_cons.mp hskipped
      rw [List.cons_append, keepsTimes_cons_iff hlimit hx, ih hskipped]

theorem keepsTimes_of_suffix (hlimit : 0 < limit) {xs ys : List α} (hsuffix : xs <:+ ys)
    (hdue : xs.filter due = ys.filter due) :
    KeepsTimes limit stops due time ys ↔ KeepsTimes limit stops due time xs := by
  obtain ⟨skipped, rfl⟩ := hsuffix
  rw [List.filter_append, List.self_eq_append_left, List.filter_eq_nil_iff] at hdue
  exact keepsTimes_append_iff hlimit (fun x hx => Bool.eq_false_iff.mpr (hdue x hx)) xs

theorem keepsTimes_of_suffixes (hlimit : 0 < limit) {xs ys zs : List α} (hxs : xs <:+ zs)
    (hys : ys <:+ zs) (hdue : xs.filter due = ys.filter due) :
    KeepsTimes limit stops due time xs ↔ KeepsTimes limit stops due time ys := by
  rcases List.suffix_or_suffix_of_suffix hxs hys with h | h
  · exact (keepsTimes_of_suffix hlimit h hdue).symm
  · exact keepsTimes_of_suffix hlimit h hdue.symm

end skipped

section decision

variable [DecidableEq τ]

instance (xs ys : List α) : Decidable (TimesApart due time xs ys) :=
  inferInstanceAs (Decidable (∀ u ∈ xs, ∀ w ∈ ys, due u → due w → time u ≠ time w))

variable (limit stops due time) in
def keepsTimes (page : List α) : List α → Bool
  | [] => true
  | x :: rest =>
      if Full limit stops due page x then
        decide (TimesApart due time (page ++ [x]) rest) && keepsTimes [] rest
      else keepsTimes (page ++ [x]) rest

theorem keepsTimes_iff (page rest : List α) (hpage : Open limit stops due page) :
    keepsTimes limit stops due time page rest ↔
      KeepsTimes limit stops due time (page ++ rest) := by
  induction rest generalizing page with
  | nil =>
      rw [keepsTimes]
      exact iff_of_true rfl (keepsTimes_of_open hpage.dropLast (by simp))
  | cons x rest ih =>
      rw [keepsTimes, show page ++ x :: rest = page ++ [x] ++ rest by simp]
      split_ifs with hfull
      · rw [Bool.and_eq_true, decide_eq_true_iff, ih [] open_nil, List.nil_append,
          keepsTimes_page ⟨page, x, rfl, hpage, hfull⟩]
      · rw [ih (page ++ [x]) (hpage.concat hfull)]

instance (xs : List α) : Decidable (KeepsTimes limit stops due time xs) :=
  decidable_of_iff (keepsTimes limit stops due time [] xs) (keepsTimes_iff [] xs open_nil)

end decision

end LogCache.Paging
