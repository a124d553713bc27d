import LogCache.AvlNode
import Mathlib.Tactic.Linarith

namespace LogCache.AvlNode.Node

variable {κ ν : Type}

def height : Node κ ν → Nat
  | nil => 0
  | node l _ _ r _ => max l.height r.height + 1

/-- Every stored factor is the height of the right subtree minus the height
of the left one, and never leaves `-1..1`. -/
def Balanced : Node κ ν → Prop
  | nil => True
  | node l _ _ r b => l.Balanced ∧ r.Balanced ∧ b = (r.height : Int) - l.height ∧ -1 ≤ b ∧ b ≤ 1

/-- A node seen from direction `c`: `far` is the child on side `c`. The two
rebalancing directions then have one proof. -/
def link : Side → Node κ ν → κ → ν → Node κ ν → Int → Node κ ν
  | .left, near, k, v, far, b => node far k v near b
  | .right, near, k, v, far, b => node near k v far b

section
variable (c : Side) (near far : Node κ ν) (k : κ) (v : ν) (b : Int)

theorem exists_link {n : Node κ ν} (hn : 0 < n.height) :
    ∃ near k v far b, n = link c near k v far b := by
  cases n with
  | nil => simp [height] at hn
  | node l k v r b =>
      cases c with
      | left => exact ⟨r, k, v, l, b, rfl⟩
      | right => exact ⟨l, k, v, r, b, rfl⟩

theorem balance_link : (link c near k v far b).balance = b := by
  cases c <;> rfl

theorem setBalance_link (b' : Int) :
    (link c near k v far b).setBalance b' = link c near k v far b' := by
  cases c <;> rfl

theorem child_link : (link c near k v far b).child c = far := by
  cases c <;> rfl

theorem child_flip_link : (link c near k v far b).child c.flip = near := by
  cases c <;> rfl

theorem setChild_link (n : Node κ ν) :
    (link c near k v far b).setChild c n = link c near k v n b := by
  cases c <;> rfl

theorem setChild_flip_link (n : Node κ ν) :
    (link c near k v far b).setChild c.flip n = link c n k v far b := by
  cases c <;> rfl

theorem rotate_link (near' far' : Node κ ν) (k' : κ) (v' : ν) (b' : Int) :
    rotate c (link c near k v (link c near' k' v' far' b') b) =
      link c (link c near k v near' b) k' v' far' b' := by
  cases c <;> rfl

theorem rotate_flip_link (near' far' : Node κ ν) (k' : κ) (v' : ν) (b' : Int) :
    rotate c.flip (link c (link c near' k' v' far' b') k v far b) =
      link c near' k' v' (link c far' k v far b) b' := by
  cases c <;> rfl

theorem height_link : (link c near k v far b).height = max near.height far.height + 1 := by
  cases c
  · exact congrArg (· + 1) (max_comm _ _)
  · rfl

theorem balanced_link_zero :
    (link c near k v far 0).Balanced ↔ near.Balanced ∧ far.Balanced ∧ far.height = near.height := by
  cases c <;> simp only [link, Balanced] <;> constructor <;> rintro ⟨h1, h2, h3⟩ <;>
    simp only [h1, h2, true_and] <;> omega

theorem balanced_link_sign :
    (link c near k v far c.sign).Balanced ↔
      near.Balanced ∧ far.Balanced ∧ far.height = near.height + 1 := by
  cases c <;> simp only [link, Balanced, Side.sign] <;> constructor <;> rintro ⟨h1, h2, h3⟩ <;>
    simp only [h1, h2, true_and] <;> omega

theorem balanced_link_neg_sign :
    (link c near k v far (-c.sign)).Balanced ↔
      near.Balanced ∧ far.Balanced ∧ near.height = far.height + 1 := by
  cases c <;> simp only [link, Balanced, Side.sign] <;> constructor <;> rintro ⟨h1, h2, h3⟩ <;>
    simp only [h1, h2, true_and] <;> omega

theorem balance_cases {near far : Node κ ν} {k : κ} {v : ν} {b : Int}
    (h : (link c near k v far b).Balanced) : b = 0 ∨ b = -c.sign ∨ b = c.sign := by
  cases c <;> obtain ⟨_, _, _, h1, h2⟩ := h <;> simp only [Side.sign] <;> omega

theorem singlerot_link (near' far' : Node κ ν) (k' : κ) (v' : ν) (b' : Int) :
    singlerot c (link c near k v (link c near' k' v' far' b') b) =
      link c (link c near k v near' 0) k' v' far' 0 := by
  rw [singlerot, setBalance_link, rotate_link, setBalance_link]

theorem doublerot_link (n₁ n₂ n₃ n₄ : Node κ ν) (k₁ k₂ k₃ : κ) (v₁ v₂ v₃ : ν) (b₁ b₂ b₃ : Int) :
    doublerot c (link c n₁ k₁ v₁ (link c (link c n₂ k₂ v₂ n₃ b₂) k₃ v₃ n₄ b₃) b₁) =
      link c (link c n₁ k₁ v₁ n₂ (if b₂ = c.sign then -c.sign else 0)) k₂ v₂
        (link c n₃ k₃ v₃ n₄ (if b₂ = -c.sign then c.sign else 0)) 0 := by
  simp only [doublerot, child_link, rotate_flip_link, setChild_link, rotate_link, balance_link,
    child_flip_link, setChild_flip_link, setBalance_link]

end

theorem sign_ne_zero (c : Side) : c.sign ≠ 0 := by
  cases c <;> simp [Side.sign]

theorem sign_ne_neg (c : Side) : c.sign ≠ -c.sign := by
  cases c <;> simp [Side.sign]

section
variable {near far : Node κ ν} (c : Side) (k : κ) (v : ν) (b : Int)

theorem singlerot_balanced (hn : near.Balanced) (hf : far.Balanced)
    (hh : far.height = near.height + 2) (hs : far.balance = c.sign) :
    (singlerot c (link c near k v far b)).Balanced ∧
      (singlerot c (link c near k v far b)).height = near.height + 2 := by
  obtain ⟨n, k', v', f, b', rfl⟩ := exists_link c (n := far) (by omega)
  rw [balance_link] at hs
  subst hs
  obtain ⟨hn', hf', ho⟩ := (balanced_link_sign c _ _ _ _).mp hf
  rw [height_link] at hh
  rw [singlerot_link, height_link, height_link, balanced_link_zero, balanced_link_zero, height_link]
  exact ⟨⟨⟨hn, hn', by omega⟩, hf', by omega⟩, by omega⟩

theorem doublerot_balanced (hn : near.Balanced) (hf : far.Balanced)
    (hh : far.height = near.height + 2) (hs : far.balance = -c.sign) :
    (doublerot c (link c near k v far b)).Balanced ∧
      (doublerot c (link c near k v far b)).height = near.height + 2 := by
  have hs0 := sign_ne_zero c
  have hs1 := sign_ne_neg c
  obtain ⟨n, k', v', f, b', rfl⟩ := exists_link c (n := far) (by omega)
  rw [balance_link] at hs
  subst hs
  obtain ⟨hn', hf', ho⟩ := (balanced_link_neg_sign c _ _ _ _).mp hf
  obtain ⟨m, k'', v'', g, b'', rfl⟩ := exists_link c (n := n) (by omega)
  rw [height_link] at ho
  rw [height_link, height_link] at hh
  rw [doublerot_link, height_link, height_link, height_link, balanced_link_zero, height_link,
    height_link]
  obtain rfl | rfl | rfl := balance_cases c hn'
  · obtain ⟨hm, hg, hmg⟩ := (balanced_link_zero c _ _ _ _).mp hn'
    rw [if_neg (Ne.symm hs0), if_neg (by omega), balanced_link_zero, balanced_link_zero]
    exact ⟨⟨⟨hn, hm, by omega⟩, ⟨hg, hf', by omega⟩, by omega⟩, by omega⟩
  · obtain ⟨hm, hg, hmg⟩ := (balanced_link_neg_sign c _ _ _ _).mp hn'
    rw [if_neg (Ne.symm hs1), if_pos rfl, balanced_link_zero, balanced_link_sign]
    exact ⟨⟨⟨hn, hm, by omega⟩, ⟨hg, hf', by omega⟩, by omega⟩, by omega⟩
  · obtain ⟨hm, hg, hmg⟩ := (balanced_link_sign c _ _ _ _).mp hn'
    rw [if_pos rfl, if_neg hs1, balanced_link_zero, balanced_link_neg_sign]
    exact ⟨⟨⟨hn, hm, by omega⟩, ⟨hg, hf', by omega⟩, by omega⟩, by omega⟩

theorem rotate_balanced (hn : near.Balanced) (hf : far.Balanced) (hh : far.height = near.height + 2)
    (hs : far.balance = 0) :
    ((rotate c (link c near k v far c.sign)).setBalance (-c.sign)).Balanced ∧
      ((rotate c (link c near k v far c.sign)).setBalance (-c.sign)).height = near.height + 3 := by
  obtain ⟨n, k', v', f, b', rfl⟩ := exists_link c (n := far) (by omega)
  rw [balance_link] at hs
  subst hs
  obtain ⟨hn', hf', ho⟩ := (balanced_link_zero c _ _ _ _).mp hf
  rw [height_link] at hh
  rw [rotate_link, setBalance_link, height_link, height_link, balanced_link_neg_sign,
    balanced_link_sign, height_link]
  exact ⟨⟨⟨hn, hn', by omega⟩, hf', by omega⟩, by omega⟩

end

theorem putFix_balanced (c : Side) (near : Node κ ν) (k : κ) (v : ν) {old far : Node κ ν} {b : Int}
    (hb : (link c near k v old b).Balanced) (hf : far.Balanced) (hh : far.height = old.height + 1)
    (hg : far.height = 1 ∨ far.balance ≠ 0) :
    (putFix c (link c near k v far b)).1.Balanced ∧
      (putFix c (link c near k v far b)).1.height =
        max near.height old.height + 1 + (putFix c (link c near k v far b)).2.toNat ∧
      ((putFix c (link c near k v far b)).2 = true →
        (putFix c (link c near k v far b)).1.balance ≠ 0) := by
  have hs0 := sign_ne_zero c
  have hs1 := sign_ne_neg c
  obtain rfl | rfl | rfl := balance_cases c hb
  · obtain ⟨hn, _, ho⟩ := (balanced_link_zero c _ _ _ _).mp hb
    rw [putFix, balance_link, if_pos rfl, setBalance_link, balanced_link_sign, height_link,
      balance_link]
    exact ⟨⟨hn, hf, by omega⟩, by simp only [Bool.toNat_true]; omega, fun _ => hs0⟩
  · obtain ⟨hn, _, ho⟩ := (balanced_link_neg_sign c _ _ _ _).mp hb
    rw [putFix, balance_link, if_neg (by omega), if_pos rfl, setBalance_link, balanced_link_zero,
      height_link]
    exact ⟨⟨hn, hf, by omega⟩, by simp only [Bool.toNat_false]; omega, fun h => by cases h⟩
  · obtain ⟨hn, _, ho⟩ := (balanced_link_sign c _ _ _ _).mp hb
    rw [putFix, balance_link, if_neg hs0, if_neg hs1, child_link]
    split_ifs with hfar
    · obtain ⟨h1, h2⟩ := singlerot_balanced c k v c.sign hn hf (by omega) hfar
      exact ⟨h1, by rw [h2]; simp only [Bool.toNat_false]; omega, fun h => by cases h⟩
    · have hneg : far.balance = -c.sign := by
        obtain ⟨n, k', v', f, b', rfl⟩ := exists_link c (n := far) (by omega)
        rw [balance_link] at hg hfar ⊢
        have := balance_cases c hf
        omega
      obtain ⟨h1, h2⟩ := doublerot_balanced c k v c.sign hn hf (by omega) hneg
      exact ⟨h1, by rw [h2]; simp only [Bool.toNat_false]; omega, fun h => by cases h⟩

theorem removeFix_balanced (c : Side) (far : Node κ ν) {near old : Node κ ν} {k : κ}
    {v : ν} {b : Int} (hb : (link c old k v far b).Balanced) (hn : near.Balanced)
    (hh : near.height + 1 = old.height) :
    (removeFix c (link c near k v far b)).1.Balanced ∧
      (removeFix c (link c near k v far b)).1.height + (removeFix c
        (link c near k v far b)).2.toNat =
        max old.height far.height + 1 := by
  have hs0 := sign_ne_zero c
  have hs1 := sign_ne_neg c
  obtain rfl | rfl | rfl := balance_cases c hb
  · obtain ⟨_, hf, ho⟩ := (balanced_link_zero c _ _ _ _).mp hb
    rw [removeFix, balance_link, if_pos rfl, setBalance_link, balanced_link_sign, height_link]
    exact ⟨⟨hn, hf, by omega⟩, by simp only [Bool.toNat_false]; omega⟩
  · obtain ⟨_, hf, ho⟩ := (balanced_link_neg_sign c _ _ _ _).mp hb
    rw [removeFix, balance_link, if_neg (by omega), if_pos rfl, setBalance_link, balanced_link_zero,
      height_link]
    exact ⟨⟨hn, hf, by omega⟩, by simp only [Bool.toNat_true]; omega⟩
  · obtain ⟨_, hf, ho⟩ := (balanced_link_sign c _ _ _ _).mp hb
    rw [removeFix, balance_link, if_neg hs0, if_neg hs1, child_link]
    split_ifs with hz hfar
    · obtain ⟨h1, h2⟩ := rotate_balanced c k v hn hf (by omega) hz
      exact ⟨h1, by rw [h2]; simp only [Bool.toNat_false]; omega⟩
    · obtain ⟨h1, h2⟩ := singlerot_balanced c k v c.sign hn hf (by omega) hfar
      exact ⟨h1, by rw [h2]; simp only [Bool.toNat_true]; omega⟩
    · have hneg : far.balance = -c.sign := by
        obtain ⟨n, k', v', f, b', rfl⟩ := exists_link c (n := far) (by omega)
        rw [balance_link] at hz hfar ⊢
        have := balance_cases c hf
        omega
      obtain ⟨h1, h2⟩ := doublerot_balanced c k v c.sign hn hf (by omega) hneg
      exact ⟨h1, by rw [h2]; simp only [Bool.toNat_true]; omega⟩

theorem link_balanced_congr (c : Side) (near : Node κ ν) (k' : κ) (v' : ν) {old far : Node κ ν}
    {k : κ} {v : ν} {b : Int}
    (hb : (link c near k v old b).Balanced) (hf : far.Balanced) (hh : far.height = old.height) :
    (link c near k' v' far b).Balanced := by
  cases c
  · obtain ⟨_, hn, h⟩ := hb
    exact ⟨hf, hn, by rw [hh]; exact h⟩
  · obtain ⟨hn, _, h⟩ := hb
    exact ⟨hn, hf, by rw [hh]; exact h⟩

def refit (fix : Node κ ν → Node κ ν × Bool) (changed : Bool) (q : Node κ ν) : Node κ ν × Bool :=
  if changed then fix q else (q, false)

theorem grown_balanced (c : Side) (near : Node κ ν) {k : κ} {v : ν} {old far : Node κ ν} {b : Int}
    {grew : Bool} (hb : (link c near k v old b).Balanced) (hf : far.Balanced)
    (hh : far.height = old.height + grew.toNat)
    (hg : grew = true → far.height = 1 ∨ far.balance ≠ 0) :
    (refit (putFix c) grew (link c near k v far b)).1.Balanced ∧
      (refit (putFix c) grew (link c near k v far b)).1.height =
        (link c near k v old b).height + (refit (putFix c) grew (link c near k v far b)).2.toNat ∧
      ((refit (putFix c) grew (link c near k v far b)).2 = true →
        (refit (putFix c) grew (link c near k v far b)).1.height = 1 ∨
          (refit (putFix c) grew (link c near k v far b)).1.balance ≠ 0) := by
  cases grew with
  | false =>
      refine ⟨link_balanced_congr c near k v hb hf hh, ?_, fun h => by cases h⟩
      rw [refit, if_neg Bool.false_ne_true, height_link, height_link, hh]
      rfl
  | true =>
      obtain ⟨hbal, hheight, hlean⟩ := putFix_balanced c near k v hb hf hh (hg rfl)
      rw [refit, if_pos rfl, height_link]
      exact ⟨hbal, hheight, fun h => .inr (hlean h)⟩

theorem shrunk_balanced (c : Side) (far : Node κ ν) (k' : κ) (v' : ν) {near old : Node κ ν} {k : κ}
    {v : ν} {b : Int} {shrank : Bool} (hb : (link c old k v far b).Balanced) (hn : near.Balanced)
    (hh : near.height + shrank.toNat = old.height) :
    (refit (removeFix c) shrank (link c near k' v' far b)).1.Balanced ∧
      (refit (removeFix c) shrank (link c near k' v' far b)).1.height +
        (refit (removeFix c) shrank (link c near k' v' far b)).2.toNat =
          (link c old k v far b).height := by
  have hb' : (link c old k' v' far b).Balanced := by cases c <;> exact hb
  cases shrank with
  | false =>
      rw [refit, if_neg Bool.false_ne_true, height_link, height_link]
      rw [Bool.toNat_false, Nat.add_zero] at hh
      refine ⟨?_, by rw [hh]; rfl⟩
      cases c with
      | left => exact link_balanced_congr .right far k' v' hb' hn hh
      | right => exact link_balanced_congr .left far k' v' hb' hn hh
  | true =>
      rw [refit, if_pos rfl, height_link]
      exact removeFix_balanced c far hb' hn hh

theorem removeMin_balanced (l : Node κ ν) (k : κ) (v : ν) (r : Node κ ν) (b : Int)
    (hb : (node l k v r b).Balanced) :
    (removeMin l k v r b).1.Balanced ∧
      (removeMin l k v r b).1.height + (removeMin l k v r b).2.2.2.toNat =
        (node l k v r b).height := by
  induction l generalizing k v r b with
  | nil => exact ⟨hb.2.1, by simp [removeMin, height]⟩
  | node ll lk lv lr lb ihl ihr =>
      obtain ⟨hbal, hheight⟩ := ihl lk lv lr lb hb.1
      have hshrunk := shrunk_balanced .right r k v hb hbal hheight
      rw [refit] at hshrunk
      rw [removeMin]
      split_ifs at hshrunk ⊢ <;> exact hshrunk

variable [LinearOrder κ]

theorem put_balanced (key : κ) (value : ν) (size : Nat) (n : Node κ ν) (hb : n.Balanced) :
    (n.put key value size).1.Balanced ∧
      (n.put key value size).1.height = n.height + (n.put key value size).2.2.toNat ∧
      ((n.put key value size).2.2 = true →
        (n.put key value size).1.height = 1 ∨ (n.put key value size).1.balance ≠ 0) := by
  induction n with
  | nil => simp [put, Balanced, height]
  | node l k v r b ihl ihr =>
      cases hc : compare key k with
      | eq => simpa [put, hc, Balanced, height] using hb
      | lt =>
          obtain ⟨hbal, hheight, hlean⟩ := ihl hb.1
          have hgrown := grown_balanced .left r hb hbal hheight hlean
          rw [refit] at hgrown
          simp only [put, hc]
          split_ifs at hgrown ⊢ <;> exact hgrown
      | gt =>
          obtain ⟨hbal, hheight, hlean⟩ := ihr hb.2.1
          have hgrown := grown_balanced .right l hb hbal hheight hlean
          rw [refit] at hgrown
          simp only [put, hc]
          split_ifs at hgrown ⊢ <;> exact hgrown

theorem remove_balanced (key : κ) (size : Nat) (n : Node κ ν) (hb : n.Balanced) :
    (n.remove key size).1.Balanced ∧
      (n.remove key size).1.height + (n.remove key size).2.2.toNat = n.height := by
  induction n with
  | nil => simp [remove, Balanced, height]
  | node l k v r b ihl ihr =>
      cases hc : compare key k with
      | eq =>
          cases r with
          | nil => simpa [remove, hc, height] using hb.1
          | node rl rk rv rr rb =>
              obtain ⟨hbal, hheight⟩ := removeMin_balanced rl rk rv rr rb hb.2.1
              have hshrunk := shrunk_balanced .left l (removeMin rl rk rv rr rb).2.1
                (removeMin rl rk rv rr rb).2.2.1 hb hbal hheight
              rw [refit] at hshrunk
              simp only [remove, hc]
              split_ifs at hshrunk ⊢ <;> exact hshrunk
      | lt =>
          obtain ⟨hbal, hheight⟩ := ihl hb.1
          have hshrunk := shrunk_balanced .right r k v hb hbal hheight
          rw [refit] at hshrunk
          simp only [remove, hc]
          split_ifs at hshrunk ⊢ <;> exact hshrunk
      | gt =>
          obtain ⟨hbal, hheight⟩ := ihr hb.2.1
          have hshrunk := shrunk_balanced .left l k v hb hbal hheight
          rw [refit] at hshrunk
          simp only [remove, hc]
          split_ifs at hshrunk ⊢ <;> exact hshrunk

end LogCache.AvlNode.Node
