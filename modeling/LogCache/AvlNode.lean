import Mathlib.Order.Compare
import Mathlib.Order.Lattice
import Mathlib.Tactic.Cases

namespace LogCache.AvlNode

/-- The two values of the direction parameter: `-1` for the left child and
`1` for the right child. -/
inductive Side
  | left
  | right
deriving DecidableEq, Repr

def Side.flip : Side → Side
  | .left => .right
  | .right => .left

def Side.sign : Side → Int
  | .left => -1
  | .right => 1

inductive Node (κ ν : Type)
  | nil
  | node (left : Node κ ν) (key : κ) (value : ν) (right : Node κ ν) (b : Int)
deriving Repr

variable {κ ν : Type}

namespace Node

def child : Side → Node κ ν → Node κ ν
  | _, nil => nil
  | .left, node l _ _ _ _ => l
  | .right, node _ _ _ r _ => r

@[elab_as_elim]
theorem side_induction {P : Node κ ν → Prop} (near : Side) (n : Node κ ν) (nil : P nil)
    (node : ∀ l k v r b, P (child near (node l k v r b)) → P (child near.flip (node l k v r b)) →
      P (node l k v r b)) :
    P n := by
  induction n with
  | nil => exact nil
  | node l k v r b ihl ihr =>
      cases near with
      | left => exact node l k v r b ihl ihr
      | right => exact node l k v r b ihr ihl

def setChild : Side → Node κ ν → Node κ ν → Node κ ν
  | _, nil, _ => nil
  | .left, node _ k v r b, l => node l k v r b
  | .right, node l k v _ b, r => node l k v r b

def balance : Node κ ν → Int
  | nil => 0
  | node _ _ _ _ b => b

def setBalance : Node κ ν → Int → Node κ ν
  | nil, _ => nil
  | node l k v r _, b => node l k v r b

/-- The child on side `c` becomes the root. A node without that child is
returned as it is; balanced trees are never rotated there. -/
def rotate : Side → Node κ ν → Node κ ν
  | .right, node l k v (node rl rk rv rr rb) b => node (node l k v rl b) rk rv rr rb
  | .left, node (node ll lk lv lr lb) k v r b => node ll lk lv (node lr k v r b) lb
  | _, s => s

def singlerot (c : Side) (s : Node κ ν) : Node κ ν :=
  (rotate c (s.setBalance 0)).setBalance 0

def doublerot (c : Side) (s : Node κ ν) : Node κ ν :=
  let p := rotate c (s.setChild c (rotate c.flip (s.child c)))
  let bs := if p.balance = c.sign then -c.sign else 0
  let br := if p.balance = -c.sign then c.sign else 0
  let p := p.setChild c.flip ((p.child c.flip).setBalance bs)
  let p := p.setChild c ((p.child c).setBalance br)
  p.setBalance 0

/-- Rebalance after the subtree on side `c` has grown by one level. The flag
says whether the whole tree has grown. -/
def putFix (c : Side) (s : Node κ ν) : Node κ ν × Bool :=
  if s.balance = 0 then (s.setBalance c.sign, true)
  else if s.balance = -c.sign then (s.setBalance 0, false)
  else if (s.child c).balance = c.sign then (singlerot c s, false)
  else (doublerot c s, false)

/-- Rebalance after the subtree opposite to `c` has shrunk by one level. The
flag says whether the whole tree has shrunk. -/
def removeFix (c : Side) (s : Node κ ν) : Node κ ν × Bool :=
  if s.balance = 0 then (s.setBalance c.sign, false)
  else if s.balance = -c.sign then (s.setBalance 0, true)
  else if (s.child c).balance = 0 then ((rotate c s).setBalance (-c.sign), false)
  else if (s.child c).balance = c.sign then (singlerot c s, true)
  else (doublerot c s, true)

def removeMin : Node κ ν → κ → ν → Node κ ν → Int → Node κ ν × κ × ν × Bool
  | nil, k, v, r, _ => (r, k, v, true)
  | node ll lk lv lr lb, k, v, r, b =>
      let m := removeMin ll lk lv lr lb
      let q := node m.1 k v r b
      if m.2.2.2 then ((removeFix .right q).1, m.2.1, m.2.2.1, (removeFix .right q).2)
      else (q, m.2.1, m.2.2.1, false)

def toList : Node κ ν → List (κ × ν)
  | nil => []
  | node l k v r _ => toList l ++ (k, v) :: toList r

theorem mem_of_mem_child {c : Side} {s : Node κ ν} {p : κ × ν} (h : p ∈ (child c s).toList) :
    p ∈ s.toList := by
  cases s with
  | nil => cases c <;> exact h
  | node l k v r b =>
      rw [toList]
      cases c with
      | left => exact List.mem_append_left _ h
      | right => exact List.mem_append_right _ (List.mem_cons_of_mem _ h)

theorem toList_setBalance (s : Node κ ν) (b : Int) : (s.setBalance b).toList = s.toList := by
  cases s <;> rfl

theorem toList_setChild (d : Side) (s t : Node κ ν) (h : t.toList = (s.child d).toList) :
    (s.setChild d t).toList = s.toList := by
  cases s with
  | nil => cases d <;> rfl
  | node l k v r b => cases d <;> simp_all [setChild, child, toList]

theorem toList_rotate (c : Side) (s : Node κ ν) : (rotate c s).toList = s.toList := by
  cases s with
  | nil => cases c <;> rfl
  | node l k v r b =>
      cases c with
      | left => cases l <;> simp [rotate, toList]
      | right => cases r <;> simp [rotate, toList]

theorem toList_singlerot (c : Side) (s : Node κ ν) : (singlerot c s).toList = s.toList := by
  rw [singlerot, toList_setBalance, toList_rotate, toList_setBalance]

theorem toList_doublerot (c : Side) (s : Node κ ν) : (doublerot c s).toList = s.toList := by
  rw [doublerot, toList_setBalance, toList_setChild _ _ _ (toList_setBalance _ _),
    toList_setChild _ _ _ (toList_setBalance _ _), toList_rotate,
    toList_setChild _ _ _ (toList_rotate _ _)]

theorem toList_putFix (c : Side) (s : Node κ ν) : (putFix c s).1.toList = s.toList := by
  unfold putFix
  split_ifs
  · exact toList_setBalance _ _
  · exact toList_setBalance _ _
  · exact toList_singlerot _ _
  · exact toList_doublerot _ _

theorem toList_removeFix (c : Side) (s : Node κ ν) : (removeFix c s).1.toList = s.toList := by
  unfold removeFix
  split_ifs
  · exact toList_setBalance _ _
  · exact toList_setBalance _ _
  · rw [toList_setBalance, toList_rotate]
  · exact toList_singlerot _ _
  · exact toList_doublerot _ _

theorem toList_removeMin (l : Node κ ν) (k : κ) (v : ν) (r : Node κ ν) (b : Int) :
    ((removeMin l k v r b).2.1, (removeMin l k v r b).2.2.1) :: (removeMin l k v r b).1.toList =
      (node l k v r b).toList := by
  induction l generalizing k v r b with
  | nil => rfl
  | node ll lk lv lr lb ihl ihr =>
      rw [removeMin, toList, ← ihl lk lv lr lb]
      split_ifs
      · rw [toList_removeFix]; rfl
      · rfl

variable [LinearOrder κ]

def put (key : κ) (value : ν) (size : Nat) : Node κ ν → Node κ ν × Nat × Bool
  | nil => (node nil key value nil 0, size + 1, true)
  | node l k v r b =>
      match compare key k with
      | .eq => (node l key value r b, size, false)
      | .lt =>
          let p := put key value size l
          let q := node p.1 k v r b
          if p.2.2 then ((putFix .left q).1, p.2.1, (putFix .left q).2) else (q, p.2.1, false)
      | .gt =>
          let p := put key value size r
          let q := node l k v p.1 b
          if p.2.2 then ((putFix .right q).1, p.2.1, (putFix .right q).2) else (q, p.2.1, false)

def remove (key : κ) (size : Nat) : Node κ ν → Node κ ν × Nat × Bool
  | nil => (nil, size, false)
  | node l k v r b =>
      match compare key k with
      | .eq =>
          match r with
          | nil => (l, size - 1, true)
          | node rl rk rv rr rb =>
              let m := removeMin rl rk rv rr rb
              let q := node l m.2.1 m.2.2.1 m.1 b
              if m.2.2.2 then ((removeFix .left q).1, size - 1, (removeFix .left q).2)
              else (q, size - 1, false)
      | .lt =>
          let p := remove key size l
          let q := node p.1 k v r b
          if p.2.2 then ((removeFix .right q).1, p.2.1, (removeFix .right q).2)
          else (q, p.2.1, false)
      | .gt =>
          let p := remove key size r
          let q := node l k v p.1 b
          if p.2.2 then ((removeFix .left q).1, p.2.1, (removeFix .left q).2) else (q, p.2.1, false)

def getNode (key : κ) : Node κ ν → Option ν
  | nil => none
  | node l k v r _ =>
      match compare key k with
      | .eq => some v
      | .lt => getNode key l
      | .gt => getNode key r

/-- Search order: the keys increase strictly along the in-order list. -/
def Sorted (n : Node κ ν) : Prop := n.toList.Pairwise (fun p q => p.1 < q.1)

theorem sorted_node {l : Node κ ν} {k : κ} {v : ν} {r : Node κ ν} {b : Int} :
    (node l k v r b).Sorted ↔
      l.Sorted ∧ r.Sorted ∧ (∀ p ∈ l.toList, p.1 < k) ∧ ∀ p ∈ r.toList, k < p.1 := by
  simp only [Sorted, toList, List.pairwise_append, List.pairwise_cons, List.mem_cons]
  constructor
  · rintro ⟨hl, ⟨hk, hr⟩, hlr⟩
    exact ⟨hl, hr, fun p hp => hlr p hp _ (.inl rfl), hk⟩
  · rintro ⟨hl, hr, hlk, hk⟩
    refine ⟨hl, ⟨hk, hr⟩, ?_⟩
    rintro p hp q (rfl | hq)
    · exact hlk p hp
    · exact (hlk p hp).trans (hk q hq)

theorem getNode_eq_some {n : Node κ ν} (hn : n.Sorted) (key : κ) (value : ν) :
    n.getNode key = some value ↔ (key, value) ∈ n.toList := by
  induction n with
  | nil => simp [getNode, toList]
  | node l k v r b ihl ihr =>
      obtain ⟨hl, hr, hlk, hkr⟩ := sorted_node.mp hn
      have hnl (h : k ≤ key) : (key, value) ∉ l.toList := fun hm => absurd (hlk _ hm) (not_lt.mpr h)
      have hnr (h : key ≤ k) : (key, value) ∉ r.toList := fun hm => absurd (hkr _ hm) (not_lt.mpr h)
      cases hc : compare key k with
      | eq =>
          obtain rfl := compare_eq_iff_eq.mp hc
          simp [getNode, toList, hnl le_rfl, hnr le_rfl, eq_comm]
      | lt =>
          have h := compare_lt_iff_lt.mp hc
          simp [getNode, hc, toList, ihl hl, hnr h.le, h.ne]
      | gt =>
          have h := compare_gt_iff_gt.mp hc
          simp [getNode, hc, toList, ihr hr, hnl h.le, h.ne']

/-- What `put` leaves on the list of entries: the smaller keys, the new
entry, the larger keys. -/
def putList (key : κ) (value : ν) (xs : List (κ × ν)) : List (κ × ν) :=
  xs.filter (fun p => p.1 < key) ++ (key, value) :: xs.filter (fun p => key < p.1)

theorem filter_lt_eq_self {xs : List (κ × ν)} {key k : κ} (h : ∀ p ∈ xs, p.1 < k) (hk : k ≤ key) :
    xs.filter (fun p => p.1 < key) = xs ∧ xs.filter (fun p => key < p.1) = [] := by
  constructor
  · exact List.filter_eq_self.mpr fun p hp => decide_eq_true ((h p hp).trans_le hk)
  · exact List.filter_eq_nil_iff.mpr fun p hp => by simpa using ((h p hp).trans_le hk).le

theorem filter_gt_eq_self {xs : List (κ × ν)} {key k : κ} (h : ∀ p ∈ xs, k < p.1) (hk : key ≤ k) :
    xs.filter (fun p => p.1 < key) = [] ∧ xs.filter (fun p => key < p.1) = xs := by
  constructor
  · exact List.filter_eq_nil_iff.mpr fun p hp => by simpa using (hk.trans_lt (h p hp)).le
  · exact List.filter_eq_self.mpr fun p hp => decide_eq_true (hk.trans_lt (h p hp))

theorem toList_put {n : Node κ ν} (hn : n.Sorted) (key : κ) (value : ν) (size : Nat) :
    (n.put key value size).1.toList = putList key value n.toList := by
  induction n with
  | nil => rfl
  | node l k v r b ihl ihr =>
      obtain ⟨hl, hr, hlk, hkr⟩ := sorted_node.mp hn
      cases hc : compare key k with
      | eq =>
          obtain rfl := compare_eq_iff_eq.mp hc
          obtain ⟨h1, h2⟩ := filter_lt_eq_self hlk le_rfl
          obtain ⟨h3, h4⟩ := filter_gt_eq_self hkr le_rfl
          simp [put, toList, putList, h1, h2, h3, h4]
      | lt =>
          have h := compare_lt_iff_lt.mp hc
          obtain ⟨h3, h4⟩ := filter_gt_eq_self hkr h.le
          have hput : ((node l k v r b).put key value size).1.toList =
              (l.put key value size).1.toList ++ (k, v) :: r.toList := by
            simp only [put, hc]
            split_ifs
            · rw [toList_putFix]; rfl
            · rfl
          rw [hput, ihl hl]
          simp [toList, putList, h3, h4, h, h.le]
      | gt =>
          have h := compare_gt_iff_gt.mp hc
          obtain ⟨h1, h2⟩ := filter_lt_eq_self hlk (le_of_lt h)
          have hput : ((node l k v r b).put key value size).1.toList =
              l.toList ++ (k, v) :: (r.put key value size).1.toList := by
            simp only [put, hc]
            split_ifs
            · rw [toList_putFix]; rfl
            · rfl
          rw [hput, ihr hr]
          simp [toList, putList, h1, h2, h, le_of_lt h]

theorem toList_remove {n : Node κ ν} (hn : n.Sorted) (key : κ) (size : Nat) :
    (n.remove key size).1.toList = n.toList.filter (fun p => p.1 ≠ key) := by
  induction n with
  | nil => rfl
  | node l k v r b ihl ihr =>
      obtain ⟨hl, hr, hlk, hkr⟩ := sorted_node.mp hn
      have hfl (h : k ≤ key) : l.toList.filter (fun p => p.1 ≠ key) = l.toList :=
        List.filter_eq_self.mpr fun p hp => by simpa using ((hlk p hp).trans_le h).ne
      have hfr (h : key ≤ k) : r.toList.filter (fun p => p.1 ≠ key) = r.toList :=
        List.filter_eq_self.mpr fun p hp => by simpa using (h.trans_lt (hkr p hp)).ne'
      cases hc : compare key k with
      | eq =>
          obtain rfl := compare_eq_iff_eq.mp hc
          have hrem : ((node l key v r b).remove key size).1.toList = l.toList ++ r.toList := by
            cases r with
            | nil => simp [remove, toList]
            | node rl rk rv rr rb =>
                have hm := toList_removeMin rl rk rv rr rb
                simp only [remove, hc]
                split_ifs
                · rw [toList_removeFix, ← hm]; rfl
                · rw [← hm]; rfl
          rw [hrem, toList, List.filter_append, hfl le_rfl,
            List.filter_cons_of_neg (by simp), hfr le_rfl]
      | lt =>
          have h := compare_lt_iff_lt.mp hc
          have hrem : ((node l k v r b).remove key size).1.toList =
              (l.remove key size).1.toList ++ (k, v) :: r.toList := by
            simp only [remove, hc]
            split_ifs
            · rw [toList_removeFix]; rfl
            · rfl
          rw [hrem, ihl hl, toList, List.filter_append,
            List.filter_cons_of_pos (by simpa using h.ne'), hfr h.le]
      | gt =>
          have h := compare_gt_iff_gt.mp hc
          have hrem : ((node l k v r b).remove key size).1.toList =
              l.toList ++ (k, v) :: (r.remove key size).1.toList := by
            simp only [remove, hc]
            split_ifs
            · rw [toList_removeFix]; rfl
            · rfl
          rw [hrem, ihr hr, toList, List.filter_append,
            List.filter_cons_of_pos (by simpa using h.ne), hfl (le_of_lt h)]

theorem size_put (n : Node κ ν) (key : κ) (value : ν) (size : Nat) :
    (n.put key value size).2.1 = if (n.getNode key).isSome then size else size + 1 := by
  induction n with
  | nil => rfl
  | node l k v r b ihl ihr =>
      cases hc : compare key k <;> simp only [put, getNode, hc, Option.isSome_some, if_true]
      · rw [← ihl]; split_ifs <;> rfl
      · rw [← ihr]; split_ifs <;> rfl

theorem size_remove (n : Node κ ν) (key : κ) (size : Nat) :
    (n.remove key size).2.1 = if (n.getNode key).isSome then size - 1 else size := by
  induction n with
  | nil => rfl
  | node l k v r b ihl ihr =>
      cases hc : compare key k <;> simp only [remove, getNode, hc, Option.isSome_some, if_true]
      · rw [← ihl]; split_ifs <;> rfl
      · cases r with
        | nil => rfl
        | node rl rk rv rr rb => simp only []; split_ifs <;> rfl
      · rw [← ihr]; split_ifs <;> rfl

end Node

end LogCache.AvlNode
