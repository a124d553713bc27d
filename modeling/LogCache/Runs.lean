import Mathlib.Algebra.BigOperators.Group.List.Basic
import Mathlib.Algebra.GroupWithZero.Nat

namespace LogCache.Runs

theorem bind_ok {ε α β : Type} {x : Except ε α} {f : α → Except ε β} {b : β} (h : x >>= f = .ok b) :
    ∃ a, x = .ok a ∧ f a = .ok b := by
  cases x with
  | error e => cases h
  | ok a => exact ⟨a, rfl, h⟩

theorem map_ok {ε α β : Type} {f : α → β} {x : Except ε α} {b : β} (h : f <$> x = .ok b) :
    ∃ a, x = .ok a ∧ b = f a := by
  cases x with
  | error e => cases h
  | ok a =>
      cases h
      exact ⟨a, rfl, rfl⟩

theorem mapM_ok {ε α β : Type} {f : α → Except ε β} {g : α → β} {xs : List α}
    (h : ∀ a ∈ xs, f a = .ok (g a)) :
    xs.mapM f = .ok (xs.map g) := by
  induction xs with
  | nil => rfl
  | cons a xs ih =>
      rw [List.mapM_cons, h a List.mem_cons_self, ih fun b hb => h b (List.mem_cons_of_mem _ hb)]
      rfl

theorem mapM_exists {ε α β : Type} {f : α → Except ε β} {xs : List α}
    (h : ∀ a ∈ xs, ∃ b, f a = .ok b) :
    ∃ bs, xs.mapM f = .ok bs := by
  induction xs with
  | nil => exact ⟨[], rfl⟩
  | cons a xs ih =>
      obtain ⟨b, hb⟩ := h a List.mem_cons_self
      obtain ⟨bs, hbs⟩ := ih fun c hc => h c (List.mem_cons_of_mem _ hc)
      exact ⟨b :: bs, by rw [List.mapM_cons, hb, hbs]; rfl⟩

theorem exists_of_mem_mapM {ε α β : Type} {f : α → Except ε β} {xs : List α} {bs : List β} {b : β}
    (h : xs.mapM f = .ok bs) (hb : b ∈ bs) : ∃ a ∈ xs, f a = .ok b := by
  induction xs generalizing bs with
  | nil =>
      cases h
      cases hb
  | cons a xs ih =>
      rw [List.mapM_cons] at h
      obtain ⟨c, hc, h⟩ := bind_ok h
      obtain ⟨cs, hcs, h⟩ := bind_ok h
      cases h
      rcases List.mem_cons.mp hb with rfl | hb
      · exact ⟨a, List.mem_cons_self, hc⟩
      · obtain ⟨d, hd, hdb⟩ := ih hcs hb
        exact ⟨d, List.mem_cons_of_mem _ hd, hdb⟩

theorem toOption_eq_some {ε α : Type} {x : Except ε α} {a : α} : x.toOption = some a ↔
    x = .ok a := by
  cases x with
  | error e => simp [Except.toOption]
  | ok b => simp [Except.toOption]

theorem foldlM_error {ε σ α : Type} {step : σ → α → Except ε σ} {xs : List α} {a : α} (ha : a ∈ xs)
    (h : ∀ s, ∃ err, step s a = .error err) (s : σ) : ∃ err, xs.foldlM step s = .error err := by
  induction xs generalizing s with
  | nil => cases ha
  | cons b xs ih =>
      rw [List.foldlM_cons]
      cases hb : step s b with
      | error err => exact ⟨err, rfl⟩
      | ok t =>
          rcases List.mem_cons.mp ha with rfl | ha
          · obtain ⟨err, herr⟩ := h s
            rw [herr] at hb
            cases hb
          · exact ih ha t

theorem exists_of_ends {ε α : Type} {x : Except ε α} {P : α → Prop} [DecidablePred P]
    (h : x.toOption.any (fun a => decide (P a)) = true) : ∃ a, x = .ok a ∧ P a := by
  cases x with
  | error e => cases h
  | ok a => exact ⟨a, rfl, of_decide_eq_true h⟩

theorem exists_of_isOk {ε α : Type} {x : Except ε α} (h : x.isOk = true) : ∃ a, x = .ok a := by
  cases x with
  | error e => cases h
  | ok a => exact ⟨a, rfl⟩

theorem error_of_fails {ε α : Type} [DecidableEq ε] {x : Except ε α} {e : ε}
    (h : (match x with | .error e' => decide (e' = e) | .ok _ => false) = true) : x = .error e := by
  cases x with
  | error e' => exact congrArg Except.error (of_decide_eq_true h)
  | ok a => cases h

variable {σ α ε : Type} (step : σ → α → Except ε σ)

def run : σ → List α → Except ε σ
  | s, [] => .ok s
  | s, a :: as => step s a >>= fun s' => run s' as

/-- A condition on the state before each step, asked of every step a run
takes. -/
def Along (P : σ → α → Prop) : σ → List α → Prop
  | _, [] => True
  | s, a :: as => P s a ∧ ∀ s', step s a = .ok s' → Along P s' as

variable {step}

theorem run_cons_ok {s s' : σ} {a : α} {as : List α} (h : run step s (a :: as) = .ok s') :
    ∃ t, step s a = .ok t ∧ run step t as = .ok s' := by
  rw [run] at h
  exact bind_ok h

theorem Along.initial {P : σ → α → Prop} {s : σ} {as bs : List α} (h : Along step P s as)
    (hbs : bs <+: as) :
    Along step P s bs := by
  induction bs generalizing s as with
  | nil => trivial
  | cons b bs ih =>
      obtain ⟨rest, rfl⟩ := hbs
      exact ⟨h.1, fun t ht => ih (h.2 t ht) ⟨rest, rfl⟩⟩

theorem along_of_mem {P : σ → α → Prop} {as : List α} (h : ∀ s, ∀ a ∈ as, P s a) (s : σ) :
    Along step P s as := by
  induction as generalizing s with
  | nil => trivial
  | cons a as ih => exact ⟨h s a List.mem_cons_self,
    fun t _ => ih (fun s' b hb => h s' b (List.mem_cons_of_mem a hb)) t⟩

theorem along_of_forall {P : σ → α → Prop} (h : ∀ s a, P s a) (s : σ) (as : List α) :
    Along step P s as :=
  along_of_mem (fun s a _ => h s a) s

theorem run_cons_of_ok {s t : σ} {a : α} (h : step s a = .ok t) (as : List α) :
    run step s (a :: as) = run step t as := by
  rw [run, h]
  rfl

theorem run_append (s : σ) (as bs : List α) :
    run step s (as ++ bs) = run step s as >>= fun s' => run step s' bs := by
  induction as generalizing s with
  | nil => rfl
  | cons a as ih =>
      rw [List.cons_append, run, run]
      cases step s a with
      | error e => rfl
      | ok t => exact ih t

theorem run_trans {s t u : σ} {as bs : List α} (h : run step s as = .ok t)
    (h' : run step t bs = .ok u) :
    run step s (as ++ bs) = .ok u := by
  rw [run_append, h]
  exact h'

theorem run_snoc {s t u : σ} {as : List α} {a : α} (h : run step s as = .ok t)
    (ha : step t a = .ok u) :
    run step s (as ++ [a]) = .ok u :=
  run_trans h (run_cons_of_ok ha [])

theorem run_invariant {P : σ → α → Prop} {I : σ → Prop}
    (hstep : ∀ s a s', I s → P s a → step s a = .ok s' → I s')
    {s s' : σ} {as : List α} (hs : I s) (hP : Along step P s as)
    (h : run step s as = .ok s') : I s' := by
  induction as generalizing s with
  | nil => cases h; exact hs
  | cons a as ih =>
      obtain ⟨t, ht, h⟩ := run_cons_ok h
      exact ih (hstep s a t hs hP.1 ht) (hP.2 t ht) h

/-- The progress rule: if every step meeting `P` goes through and keeps the
invariant, so does every run whose steps meet `P`. -/
theorem run_progress {P : σ → α → Prop} {I : σ → Prop}
    (hstep : ∀ s a, I s → P s a → ∃ s', step s a = .ok s' ∧ I s') {s : σ} {as : List α} (hs : I s)
    (hP : Along step P s as) : ∃ s', run step s as = .ok s' ∧ I s' := by
  induction as generalizing s with
  | nil => exact ⟨s, rfl, hs⟩
  | cons a as ih =>
      obtain ⟨t, ht, hI⟩ := hstep s a hs hP.1
      rw [run_cons_of_ok ht]
      exact ih hI (hP.2 t ht)

theorem run_measure {P : α → Prop} {I : σ → Prop} {f : σ → Nat} {g : α → Nat}
    (hstep : ∀ s a s', I s → P a → step s a = .ok s' → I s' ∧ f s' = f s + g a)
    {s s' : σ} {as : List α} (hs : I s) (hP : ∀ a ∈ as, P a) (h : run step s as = .ok s') :
    I s' ∧ f s' = f s + (as.map g).sum := by
  induction as generalizing s with
  | nil =>
      cases h
      exact ⟨hs, rfl⟩
  | cons a as ih =>
      obtain ⟨t, ht, h⟩ := run_cons_ok h
      obtain ⟨hI, hf⟩ := hstep s a t hs (hP a List.mem_cons_self) ht
      obtain ⟨hI', hf'⟩ := ih hI (fun b hb => hP b (List.mem_cons_of_mem _ hb)) h
      refine ⟨hI', ?_⟩
      rw [hf', hf, List.map_cons, List.sum_cons, Nat.add_assoc]

theorem run_simulates {τ β δ : Type} {step' : τ → β → Except δ τ} {R : σ → τ → Prop}
    (hstep : ∀ s a s' t, R s t → step s a = .ok s' → ∃ bs t', run step' t bs = .ok t' ∧ R s' t')
    {s s' : σ} {as : List α} {t : τ} (hR : R s t) (h : run step s as = .ok s') :
    ∃ bs t', run step' t bs = .ok t' ∧ R s' t' := by
  induction as generalizing s t with
  | nil =>
      cases h
      exact ⟨[], t, rfl, hR⟩
  | cons a as ih =>
      obtain ⟨s₁, hs₁, h⟩ := run_cons_ok h
      obtain ⟨bs, t₁, ht₁, hR₁⟩ := hstep s a s₁ t hR hs₁
      obtain ⟨bs', t', ht', hR'⟩ := ih hR₁ h
      exact ⟨bs ++ bs', t', run_trans ht₁ ht', hR'⟩

theorem run_safe {P : σ → α → Prop} {I : σ → Prop} {B : ε → Prop}
    (hstep : ∀ s a s', I s → P s a → step s a = .ok s' → I s')
    (hsafe : ∀ s a e, I s → P s a → step s a = .error e → ¬ B e)
    {s : σ} {as : List α} (hs : I s) (hP : Along step P s as) {e : ε}
    (h : run step s as = .error e) : ¬ B e := by
  induction as generalizing s with
  | nil => cases h
  | cons a as ih =>
      rw [run] at h
      cases ht : step s a with
      | error e' =>
          rw [ht] at h
          cases h
          exact hsafe s a e hs hP.1 ht
      | ok t =>
          rw [ht] at h
          exact ih (hstep s a t hs hP.1 ht) (hP.2 t ht) h

/-- The exact condition for a property of all the states of a run: steps
meeting `P` go through and keep the invariant, and any other step breaks it. -/
theorem prefixes_iff_along {P : σ → α → Prop} {I Q : σ → Prop} (hQ : ∀ s, I s → Q s)
    (hstep : ∀ s a, I s → P s a → ∃ s', step s a = .ok s' ∧ I s')
    (hbad : ∀ s a s', I s → ¬ P s a → step s a = .ok s' → ¬ Q s') {s : σ} (hs : I s) (as : List α) :
    (∀ bs, bs <+: as → ∃ s', run step s bs = .ok s' ∧ Q s') ↔ Along step P s as := by
  constructor
  · intro h
    induction as generalizing s with
    | nil => trivial
    | cons a as ih =>
        have hP : P s a := by
          by_contra hP
          obtain ⟨s', hrun, hq⟩ := h [a] ⟨as, rfl⟩
          obtain ⟨t, ht, hnil⟩ := run_cons_ok hrun
          cases hnil
          exact hbad s a s' hs hP ht hq
        refine ⟨hP, fun t ht => ?_⟩
        obtain ⟨t', ht', hI⟩ := hstep s a hs hP
        rw [ht] at ht'
        cases ht'
        refine ih hI fun bs hbs => ?_
        rw [← run_cons_of_ok ht]
        exact h (a :: bs) ((List.prefix_cons_inj a).mpr hbs)
  · intro hP bs hbs
    obtain ⟨s', hrun, hI⟩ := run_progress hstep hs (hP.initial hbs)
    exact ⟨s', hrun, hQ s' hI⟩

theorem reached_iff_along {P : σ → α → Prop} {I Q : σ → Prop} (hQ : ∀ s, I s → Q s)
    (hstep : ∀ s a s', I s → P s a → step s a = .ok s' → I s')
    (hbad : ∀ s a, I s → ¬ P s a → ∃ s', step s a = .ok s' ∧ ¬ Q s') {s : σ} (hs : I s)
    (as : List α) :
    (∀ bs, bs <+: as → ∀ s', run step s bs = .ok s' → Q s') ↔ Along step P s as := by
  constructor
  · intro h
    induction as generalizing s with
    | nil => trivial
    | cons a as ih =>
        have hP : P s a := by
          by_contra hP
          obtain ⟨t, ht, hq⟩ := hbad s a hs hP
          exact hq (h [a] ⟨as, rfl⟩ t (run_cons_of_ok ht []))
        refine ⟨hP, fun t ht => ih (hstep s a t hs hP ht) fun bs hbs s' hrun => ?_⟩
        exact h (a :: bs) ((List.prefix_cons_inj a).mpr hbs) s' ((run_cons_of_ok ht bs).trans hrun)
  · intro hP bs hbs s' hrun
    exact hQ s' (run_invariant hstep hs (hP.initial hbs) hrun)

theorem steps_iff_along {P : σ → α → Prop} {I : σ → Prop} {L : σ → α → σ → Prop}
    (hiff : ∀ s a s', I s → step s a = .ok s' → (L s a s' ↔ P s a))
    (hinv : ∀ s a s', I s → step s a = .ok s' → L s a s' → I s')
    {s s' : σ} {as : List α} (hs : I s) (hrun : run step s as = .ok s') :
    (∀ bs a t t', bs ++ [a] <+: as → run step s bs = .ok t → step t a = .ok t' → L t a t') ↔
      Along step P s as := by
  induction as generalizing s with
  | nil =>
      refine ⟨fun _ => trivial, fun _ bs a t t' hbs => ?_⟩
      exact absurd (List.prefix_nil.mp hbs) (List.append_ne_nil_of_right_ne_nil bs
        (List.cons_ne_nil a []))
  | cons a as ih =>
      obtain ⟨u, hu, hrest⟩ := run_cons_ok hrun
      constructor
      · intro h
        have hL : L s a u := h [] a s u ⟨as, rfl⟩ rfl hu
        refine ⟨(hiff s a u hs hu).mp hL, fun u' hu' => ?_⟩
        rw [hu] at hu'
        cases hu'
        refine (ih (hinv s a u hs hu hL) hrest).mp fun bs b t t' hbs ht => ?_
        exact h (a :: bs) b t t' ((List.prefix_cons_inj a).mpr hbs)
          ((run_cons_of_ok hu bs).trans ht)
      · rintro ⟨hP, h⟩ bs b t t' hbs ht ht'
        have hL := (hiff s a u hs hu).mpr hP
        cases bs with
        | nil =>
            obtain ⟨rfl, _⟩ := List.cons_prefix_cons.mp hbs
            cases ht
            rw [hu] at ht'
            cases ht'
            exact hL
        | cons c bs =>
            obtain ⟨rfl, hbs'⟩ := List.cons_prefix_cons.mp hbs
            rw [run_cons_of_ok hu] at ht
            exact (ih (hinv s c u hs hu hL) hrest).mpr (h u hu) bs b t t' hbs' ht ht'

theorem Along.mono {P Q : σ → α → Prop} (h : ∀ s a, P s a → Q s a) {s : σ} {as : List α}
    (hP : Along step P s as) :
    Along step Q s as := by
  induction as generalizing s with
  | nil => trivial
  | cons a as ih => exact ⟨h s a hP.1, fun s' hs' => ih (hP.2 s' hs')⟩

theorem Along.and {P Q : σ → α → Prop} {s : σ} {as : List α} (hP : Along step P s as)
    (hQ : Along step Q s as) :
    Along step (fun s a => P s a ∧ Q s a) s as := by
  induction as generalizing s with
  | nil => trivial
  | cons a as ih => exact ⟨⟨hP.1, hQ.1⟩, fun s' hs' => ih (hP.2 s' hs') (hQ.2 s' hs')⟩

instance decidableAlong {P : σ → α → Prop} [∀ s a, Decidable (P s a)] :
    ∀ s as, Decidable (Along step P s as)
  | _, [] => isTrue trivial
  | s, a :: as =>
      match h : step s a with
      | .ok t =>
          have : Decidable (Along step P t as) := decidableAlong t as
          decidable_of_iff (P s a ∧ Along step P t as) (by simp [Along, h])
      | .error e => decidable_of_iff (P s a) (by simp [Along, h])

end LogCache.Runs
