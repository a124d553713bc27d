import LogCache.StructuralInvariant
import Mathlib.Data.Nat.Fib.Basic

namespace LogCache.AvlNode.Node

variable {κ ν : Type}

theorem fib_le_length {n : Node κ ν} (h : n.Balanced) :
    Nat.fib (n.height + 2) ≤ n.toList.length + 1 := by
  induction n with
  | nil => simp [height, toList]
  | node l k v r b ihl ihr =>
      obtain ⟨hl, hr, hb, hlower, hupper⟩ := h
      have hleft := ihl hl
      have hright := ihr hr
      have hstep : Nat.fib (max l.height r.height + 1 + 2) =
          Nat.fib (max l.height r.height + 1) + Nat.fib (max l.height r.height + 2) :=
            Nat.fib_add_two
      have hlength : (node l k v r b).toList.length = l.toList.length + 1 + r.toList.length := by
        simp [toList]
        omega
      rw [height, hlength]
      -- the lower subtree lacks at most one level
      rcases le_total l.height r.height with hle | hle
      · have hmono : Nat.fib (r.height + 1) ≤ Nat.fib (l.height + 2) := Nat.fib_mono (by omega)
        rw [max_eq_right hle] at hstep ⊢
        omega
      · have hmono : Nat.fib (l.height + 1) ≤ Nat.fib (r.height + 2) := Nat.fib_mono (by omega)
        rw [max_eq_left hle] at hstep ⊢
        omega

theorem height_le_of_lt_fib {n : Node κ ν} (h : n.Balanced) {d : Nat}
    (hd : n.toList.length + 1 < Nat.fib (d + 3)) :
    n.height ≤ d := by
  by_contra hheight
  have hmono : Nat.fib (d + 3) ≤ Nat.fib (n.height + 2) := Nat.fib_mono (by omega)
  have hsparse := fib_le_length h
  omega

variable [LinearOrder κ]

/-- `GetNode` with a number of turns for its loop; `none` if they do not
suffice. -/
def getNodeWithin (key : κ) : Nat → Node κ ν → Option (Option ν)
  | _, nil => some none
  | 0, node _ _ _ _ _ => none
  | turns + 1, node l k v r _ =>
      match compare key k with
      | .eq => some (some v)
      | .lt => getNodeWithin key turns l
      | .gt => getNodeWithin key turns r

theorem getNodeWithin_eq (key : κ) {turns : Nat} {n : Node κ ν} (h : n.height ≤ turns) :
    getNodeWithin key turns n = some (n.getNode key) := by
  induction n generalizing turns with
  | nil => cases turns <;> rfl
  | node l k v r b ihl ihr =>
      rw [height] at h
      cases turns with
      | zero => omega
      | succ turns =>
          have hl : l.height ≤ turns := by omega
          have hr : r.height ≤ turns := by omega
          rw [getNodeWithin, getNode]
          cases compare key k with
          | eq => rfl
          | lt => exact ihl hl
          | gt => exact ihr hr

end LogCache.AvlNode.Node

namespace LogCache.SearchDepth

open AvlNode Envelopes EnvelopeStore Runs StoreTransitions StructuralInvariant

/-- However the store was filled and pruned, no tree is deeper than a balanced
tree of the largest size, and no search in one takes more turns than that. -/
theorem search_depth (maxPerSource prunesPerGC : Int) (hmax : 1 ≤ maxPerSource) (d : Nat)
    (hd : maxPerSource + 1 < Nat.fib (d + 3)) (ops : List Op) (s : Store)
    (hrun : run exec (newStore maxPerSource prunesPerGC) ops = .ok s) (sourceId : String)
    (storage : Storage) (hlookup : s.storageIndex.lookup sourceId = some storage) :
    storage.tree.root.height ≤ d ∧
      ∀ key, storage.tree.root.getNodeWithin key d = some (storage.tree.get key) := by
  have hs : Bounded s ∧ s.config.maxPerSource = maxPerSource := by
    refine run_invariant (I := fun t => Bounded t ∧ t.config.maxPerSource = maxPerSource) ?_
      ⟨newStore_bounded hmax prunesPerGC, rfl⟩ (along_of_forall (fun _ _ => trivial) _ _) hrun
    intro t op t' ht _ hstep
    exact ⟨exec_bounded ht.1 hstep, (congrArg Config.maxPerSource (exec_config hstep)).trans ht.2⟩
  have hsize := hs.1.bound sourceId storage hlookup
  rw [hs.2, storage.tree.size_eq] at hsize
  have hheight : storage.tree.root.height ≤ d :=
    Node.height_le_of_lt_fib storage.tree.balanced (by omega)
  exact ⟨hheight, fun key => Node.getNodeWithin_eq key hheight⟩

/-- At the usual limit of 100000 envelopes for a source. -/
theorem search_depth_usual :
    ∃ s storage, run exec (newStore 100000 3) [.put (bare 2) "a", .put (bare 1) "a"] = .ok s ∧
      s.storageIndex.lookup "a" = some storage ∧
        storage.tree.root.getNodeWithin 1 23 = some (storage.tree.get 1) := by
  have hfib : (100000 : Int) + 1 < Nat.fib (23 + 3) := by decide +kernel
  obtain ⟨s, hrun, hlookup⟩ : ∃ s,
      run exec (newStore 100000 3) [.put (bare 2) "a", .put (bare 1) "a"] = .ok s ∧
      (s.storageIndex.lookup "a").isSome = true := exists_of_ends (by decide +kernel)
  obtain ⟨storage, hstorage⟩ := Option.isSome_iff_exists.mp hlookup
  exact ⟨s, storage, hrun, hstorage,
    (search_depth 100000 3 (by decide) 23 hfib _ s hrun "a" storage hstorage).2 1⟩

end LogCache.SearchDepth
