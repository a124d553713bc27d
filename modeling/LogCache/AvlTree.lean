import LogCache.AvlBalance
import Mathlib.Data.List.Perm.Basic

namespace LogCache.AvlTree

open AvlNode

variable {κ ν : Type} [LinearOrder κ]

/-- A tree in search order, balanced, with its size field counting the
entries. -/
structure Tree (κ ν : Type) [LinearOrder κ] where
  root : Node κ ν
  size : Nat
  sorted : root.Sorted
  balanced : root.Balanced
  size_eq : size = root.toList.length

theorem putList_perm (key : κ) (value : ν) (xs : List (κ × ν)) :
    (Node.putList key value xs).Perm ((key, value) :: xs.filter (fun p => p.1 ≠ key)) := by
  refine List.perm_middle.trans (List.Perm.cons _ ?_)
  induction xs with
  | nil => rfl
  | cons p xs ih =>
      obtain h | h | h := lt_trichotomy p.1 key
      · simpa [h, h.le, h.ne, not_lt.mpr h.le] using ih
      · simpa [h] using ih
      · simpa [h, h.le, h.ne', not_lt.mpr h.le] using List.perm_middle.trans (ih.cons p)

theorem putList_sorted {xs : List (κ × ν)} (hs : xs.Pairwise (fun p q => p.1 < q.1)) (key : κ)
    (value : ν) :
    (Node.putList key value xs).Pairwise (fun p q => p.1 < q.1) := by
  have hl : ∀ p ∈ xs.filter (fun p => p.1 < key), p.1 < key := by simp
  have hr : ∀ p ∈ xs.filter (fun p => key < p.1), key < p.1 := by simp
  refine List.pairwise_append.mpr ⟨hs.filter _, List.pairwise_cons.mpr ⟨hr, hs.filter _⟩, ?_⟩
  intro p hp q hq
  rcases List.mem_cons.mp hq with rfl | hq
  · exact hl p hp
  · exact (hl p hp).trans (hr q hq)

theorem filter_ne_of_notMem {xs : List (κ × ν)} {key : κ} (h : ∀ v, (key, v) ∉ xs) :
    xs.filter (fun p => p.1 ≠ key) = xs := by
  apply List.filter_eq_self.mpr
  rintro ⟨k, v⟩ hp
  refine decide_eq_true fun he => h v ?_
  rwa [show k = key from he] at hp

theorem length_filter_ne {xs : List (κ × ν)} (hs : xs.Pairwise (fun p q => p.1 < q.1))
    {key : κ} {v : ν} (h : (key, v) ∈ xs) :
    (xs.filter (fun p => p.1 ≠ key)).length + 1 = xs.length := by
  induction xs with
  | nil => cases h
  | cons p xs ih =>
      obtain ⟨hp, hs⟩ := List.pairwise_cons.mp hs
      rcases List.mem_cons.mp h with rfl | h
      · rw [List.filter_cons_of_neg (by simp), filter_ne_of_notMem, List.length_cons]
        exact fun w hw => lt_irrefl key (hp _ hw)
      · rw [List.filter_cons_of_pos (by simpa using (hp _ h).ne), List.length_cons, ih hs h,
          List.length_cons]

namespace Tree

def entries (t : Tree κ ν) : List (κ × ν) := t.root.toList

def new : Tree κ ν := ⟨.nil, 0, .nil, trivial, rfl⟩

def get (t : Tree κ ν) (key : κ) : Option ν := t.root.getNode key

theorem get_eq_some {t : Tree κ ν} {key : κ} {value : ν} :
    t.get key = some value ↔ (key, value) ∈ t.entries :=
  Node.getNode_eq_some t.sorted key value

theorem get_eq_none {t : Tree κ ν} {key : κ} : t.get key = none ↔ ∀ v, (key, v) ∉ t.entries := by
  rw [Option.eq_none_iff_forall_ne_some]
  exact forall_congr' fun v => not_congr get_eq_some

def put (t : Tree κ ν) (key : κ) (value : ν) : Tree κ ν where
  root := (t.root.put key value t.size).1
  size := (t.root.put key value t.size).2.1
  sorted := by
    rw [Node.Sorted, Node.toList_put t.sorted]
    exact putList_sorted t.sorted key value
  balanced := (Node.put_balanced key value t.size t.root t.balanced).1
  size_eq := by
    rw [Node.toList_put t.sorted, (putList_perm key value _).length_eq, List.length_cons,
      Node.size_put]
    split_ifs with h
    · obtain ⟨v, hv⟩ := Option.isSome_iff_exists.mp h
      rw [length_filter_ne t.sorted ((Node.getNode_eq_some t.sorted _ _).mp hv), t.size_eq]
    · have hn := filter_ne_of_notMem (get_eq_none.mp (Option.not_isSome_iff_eq_none.mp h))
      rw [entries] at hn
      rw [hn, t.size_eq]

def remove (t : Tree κ ν) (key : κ) : Tree κ ν where
  root := (t.root.remove key t.size).1
  size := (t.root.remove key t.size).2.1
  sorted := by
    rw [Node.Sorted, Node.toList_remove t.sorted]
    exact t.sorted.filter _
  balanced := (Node.remove_balanced key t.size t.root t.balanced).1
  size_eq := by
    rw [Node.toList_remove t.sorted, Node.size_remove]
    split_ifs with h
    · obtain ⟨v, hv⟩ := Option.isSome_iff_exists.mp h
      have := length_filter_ne t.sorted ((Node.getNode_eq_some t.sorted _ _).mp hv)
      rw [t.size_eq]
      omega
    · have hn := filter_ne_of_notMem (get_eq_none.mp (Option.not_isSome_iff_eq_none.mp h))
      rw [entries] at hn
      rw [hn, t.size_eq]

def bottomLeft : Node κ ν → κ → ν → κ × ν
  | .nil, k, v => (k, v)
  | .node l k v _ _, _, _ => bottomLeft l k v

def left (t : Tree κ ν) : Option (κ × ν) :=
  match t.root with
  | .nil => none
  | .node l k v _ _ => some (bottomLeft l k v)

omit [LinearOrder κ] in
theorem head_toList (l : Node κ ν) (k : κ) (v : ν) (xs : List (κ × ν)) :
    (l.toList ++ (k, v) :: xs).head? = some (bottomLeft l k v) := by
  induction l generalizing k v xs with
  | nil => rfl
  | node l k' v' r b ihl ihr =>
      rw [Node.toList, List.append_assoc, List.cons_append]
      exact ihl k' v' _

theorem left_eq (t : Tree κ ν) : t.left = t.entries.head? := by
  rw [left, entries]
  cases t.root with
  | nil => rfl
  | node l k v r b => exact (head_toList l k v _).symm

theorem size_eq_length (t : Tree κ ν) : t.size = t.entries.length := t.size_eq

theorem entries_sorted (t : Tree κ ν) : t.entries.Pairwise (fun p q => p.1 < q.1) := t.sorted

theorem entries_put (t : Tree κ ν) (key : κ) (value : ν) :
    (t.put key value).entries = Node.putList key value t.entries :=
  Node.toList_put t.sorted key value t.size

theorem entries_put_perm {t : Tree κ ν} {key : κ} (h : t.get key = none) (value : ν) :
    (t.put key value).entries.Perm ((key, value) :: t.entries) := by
  have hp := putList_perm key value t.entries
  rwa [← entries_put, filter_ne_of_notMem (get_eq_none.mp h)] at hp

theorem entries_remove (t : Tree κ ν) (key : κ) :
    (t.remove key).entries = t.entries.filter (fun p => p.1 ≠ key) :=
  Node.toList_remove t.sorted key t.size

theorem get_put (t : Tree κ ν) (key key' : κ) (value : ν) :
    (t.put key value).get key' = if key' = key then some value else t.get key' := by
  have hmem : ∀ v, (key', v) ∈ (t.put key value).entries ↔
      (key', v) ∈ (key, value) :: t.entries.filter (fun p => p.1 ≠ key) :=
    fun v => by rw [entries_put]; exact (putList_perm key value t.entries).mem_iff
  split_ifs with h
  · rw [get_eq_some, hmem, h]
    exact List.mem_cons_self
  · apply Option.ext
    intro v
    rw [get_eq_some, get_eq_some, hmem, List.mem_cons, List.mem_filter]
    simp [h]

theorem get_remove (t : Tree κ ν) (key key' : κ) :
    (t.remove key).get key' = if key' = key then none else t.get key' := by
  apply Option.ext
  intro v
  rw [get_eq_some, entries_remove, List.mem_filter]
  split_ifs with h
  · simp [h]
  · rw [get_eq_some]
    simp [h]

theorem size_put_of_get_none {t : Tree κ ν} {key : κ} (h : t.get key = none) (value : ν) :
    (t.put key value).size = t.size + 1 := by
  rw [size_eq_length, size_eq_length, (entries_put_perm h value).length_eq, List.length_cons]

theorem size_put_of_get_some {t : Tree κ ν} {key : κ} {v : ν} (h : t.get key = some v) (value : ν) :
    (t.put key value).size = t.size := by
  rw [size_eq_length, size_eq_length, entries_put, (putList_perm key value t.entries).length_eq,
    List.length_cons]
  exact length_filter_ne t.entries_sorted (get_eq_some.mp h)

theorem entries_remove_left {t : Tree κ ν} {p : κ × ν} (h : t.left = some p) :
    t.entries = p :: (t.remove p.1).entries := by
  rw [left_eq, List.head?_eq_some_iff] at h
  obtain ⟨xs, hxs⟩ := h
  have hs := t.entries_sorted
  rw [hxs, List.pairwise_cons] at hs
  rw [entries_remove, hxs, List.filter_cons_of_neg (by simp), filter_ne_of_notMem]
  exact fun v hv => lt_irrefl p.1 (hs.1 (p.1, v) hv)

theorem size_remove_left {t : Tree κ ν} {p : κ × ν} (h : t.left = some p) :
    (t.remove p.1).size + 1 = t.size := by
  rw [size_eq_length, size_eq_length, entries_remove_left h, List.length_cons]

theorem left_eq_none {t : Tree κ ν} : t.left = none ↔ t.size = 0 := by
  rw [left_eq, size_eq_length, List.head?_eq_none_iff, List.length_eq_zero_iff]

theorem mem_of_left {t : Tree κ ν} {p : κ × ν} (h : t.left = some p) : p ∈ t.entries := by
  rw [entries_remove_left h]
  exact List.mem_cons_self

theorem left_le {t : Tree κ ν} {p x : κ × ν} (h : t.left = some p) (hx : x ∈ t.entries) :
    p.1 ≤ x.1 := by
  have hs := t.entries_sorted
  rw [entries_remove_left h] at hx hs
  rcases List.mem_cons.mp hx with rfl | hx
  · exact le_rfl
  · exact ((List.pairwise_cons.mp hs).1 x hx).le

theorem left_isSome_iff (t : Tree κ ν) : t.left.isSome ↔ 0 < t.size := by
  rw [left_eq, size_eq_length]
  cases t.entries <;> simp

end Tree

end LogCache.AvlTree
