import Mathlib.Algebra.Order.BigOperators.Group.List
import LogCache.Conservation

namespace LogCache.Readiness

open AvlTree Envelopes EnvelopeStore StoreSteps Interleaving Runs Coherence PutCoherence
  Conservation

variable {s s' : Sys}

def supply (s : Sys) (sources : List String) : Nat :=
  (sources.map fun src => (content s src).length).sum

def toPrune : Truncation → Nat
  | .idle => 0
  | .loaded n | .building n _ _ | .pruning n _ => n

/-- How many entries the trees on the heap, and those that will be, have. -/
def prunable (s : Sys) : Nat :=
  match s.truncation with
  | .idle => 0
  | .loaded _ => size s
  | .building _ due heap => supply s (due ++ heap.map Expiration.sourceId)
  | .pruning _ heap => supply s (heap.map Expiration.sourceId)

def recorded : MetaCall → List String
  | .first _ report => report.keys
  | .second unread _ => unread

structure Ready (s : Sys) : Prop where
  room : 1 ≤ s.config.maxPerSource
  filled : ∀ tree ∈ s.filled, tree < s.next
  stocked : ∀ src tree, s.storageIndex.lookup src = some tree → tree ∈ s.filled → content s src ≠ []
  heap : ∀ x ∈ heapOf s.truncation, content s x.sourceId ≠ []
  enough : toPrune s.truncation ≤ prunable s
  metas : ∀ call ∈ s.metas, ∀ src ∈ recorded call, src ∈ s.storageIndex

/-- The heap is built from trees that a Put has been inserted into, and no
source leaves the index while a Put holds its tree or a Meta call has it
recorded. -/
def Guarded (s : Sys) : Event → Prop
  | .heapVisit sourceId => ∀ tree ∈ s.storageIndex.lookup sourceId, tree ∈ s.filled
  | .prune => ∀ oldest ∈ nextOldest s, (s.trees oldest.tree).tree.size = 1 →
      (∀ p ∈ s.puts, p.tree ≠ oldest.tree) ∧ ∀ call ∈ s.metas, oldest.sourceId ∉ recorded call
  | _ => True

instance (s : Sys) : (event : Event) → Decidable (Guarded s event)
  | .heapVisit sourceId =>
      inferInstanceAs (Decidable (∀ tree ∈ s.storageIndex.lookup sourceId, tree ∈ s.filled))
  | .prune =>
      inferInstanceAs (Decidable (∀ oldest ∈ nextOldest s, (s.trees oldest.tree).tree.size = 1 →
      (∀ p ∈ s.puts, p.tree ≠ oldest.tree) ∧ ∀ call ∈ s.metas, oldest.sourceId ∉ recorded call))
  | .putBegin _ _ | .putEnd _ | .truncateBegin
    _ | .rangeBegin | .rangeEnd | .truncateEnd | .metaBegin
  | .metaVisit _ _ | .metaTurn _ | .metaLoad _ _ | .metaEnd _ => .isTrue trivial

theorem Guarded.notHeld {event : Event} (h : Guarded s event) : NotHeld s event := by
  cases event with
  | prune => exact fun oldest ho hsize => (h oldest ho hsize).1
  | _ => trivial

section supply

variable {sources : List String}

theorem supply_mono (h : ∀ src, (content s src).length ≤ (content s' src).length)
    (sources : List String) :
    supply s sources ≤ supply s' sources :=
  List.sum_le_sum fun src _ => h src

theorem supply_perm {sources' : List String} (h : sources.Perm sources') :
    supply s sources = supply s sources' :=
  (h.map _).sum_eq

theorem supply_cons (src : String) :
    supply s (src :: sources) = (content s src).length + supply s sources := by
  rw [supply, List.map_cons, List.sum_cons]
  rfl

theorem supply_congr (h : ∀ src ∈ sources, content s' src = content s src) :
    supply s' sources = supply s sources := by
  rw [supply, supply]
  congr 1
  apply List.map_congr_left
  intro src hsrc
  rw [h src hsrc]

theorem supply_keys (s : Sys) : supply s s.storageIndex.keys = size s := by
  rw [supply, size, SyncMap.total, AList.keys, List.keys, List.map_map]
  congr 1
  apply List.map_congr_left
  rintro ⟨src, tree⟩ hmem
  have hl : s.storageIndex.lookup src = some tree := SyncMap.mem_entries.mp hmem
  rw [Function.comp_apply, content, hl]
  exact (Tree.size_eq_length _).symm

theorem prunable_mono (hcontent : ∀ src, (content s src).length ≤ (content s' src).length)
    (hsize : size s ≤ size s') (htrunc : s'.truncation = s.truncation) :
    prunable s ≤ prunable s' := by
  rw [prunable, prunable, htrunc]
  cases s.truncation with
  | idle => exact le_rfl
  | loaded n => exact hsize
  | building n due heap => exact supply_mono hcontent _
  | pruning n heap => exact supply_mono hcontent _

end supply

theorem ne_nil_of_length_le {α : Type} {xs ys : List α} (h : xs.length ≤ ys.length)
    (hxs : xs ≠ []) : ys ≠ [] := by
  rintro rfl
  exact hxs (List.eq_nil_of_length_eq_zero (Nat.le_zero.mp h))

theorem putBegin_ready (hl : Linked s) (h : Ready s) (e : Envelope) (sourceId : String) :
    Ready (s.putBegin e sourceId) := by
  obtain ⟨hconfig, hmetas, hfilled, hnext⟩ := putBegin_frame s e sourceId
  obtain ⟨htrunc, _⟩ := putBegin_rest s e sourceId
  have hcontent := putBegin_content hl e sourceId
  refine ⟨?_, ?_, ?_, ?_, ?_, ?_⟩
  · rw [hconfig]
    exact h.room
  · rw [hfilled]
    exact fun tree ht => (h.filled tree ht).trans_le hnext
  · rw [hfilled, hcontent]
    intro src tree ht hmem
    rcases lookup_of_putBegin ht with ht | rfl
    · exact h.stocked src tree ht hmem
    · exact absurd (h.filled _ hmem) (lt_irrefl _)
  · rw [htrunc, hcontent]
    exact h.heap
  · rw [htrunc]
    refine h.enough.trans (prunable_mono (fun src => ?_) (putBegin_size hl).ge htrunc)
    rw [hcontent]
  · rw [hmetas]
    intro call hcall src hsrc
    obtain ⟨tree, ht⟩ := SyncMap.mem_iff_lookup.mp (h.metas call hcall src hsrc)
    exact SyncMap.mem_iff_lookup.mpr ⟨tree, putBegin_lookup ht⟩

theorem length_le_inserted {p : PutCall} (hc : Coherent s) (hp : p ∈ s.puts) {counters : Counters}
    {storage : Storage}
    (hi : Inserted s.config s.counters (s.trees p.tree) p.envelope counters storage) :
    (s.trees p.tree).tree.entries.length ≤ storage.tree.entries.length := by
  have hlen := length_evicted s.config (s.trees p.tree)
  have hone : (evicted s.config (s.trees p.tree)).length ≤ 1 := by
    rw [evicted]
    split_ifs
    · cases (s.trees p.tree).tree.left <;> simp
    · exact Nat.zero_le 1
  rw [(inserted_perm hc hp hi).length_eq, List.length_cons, ← Tree.size_eq_length,
    ← Tree.size_eq_length]
  omega

theorem putEnd_ready {i : Nat} (hc : Coherent s) (h : Ready s) (hs : s.putEnd i = .ok s') :
    Ready s' := by
  obtain ⟨p, counters, storage, hp, hi, rfl⟩ := putEnd_ok hs
  have hmem : p ∈ s.puts := List.mem_of_getElem? hp
  have hl := hc.held p hmem
  have hperm := inserted_perm hc hmem hi
  have hupdate := content_update hc.toLinked hl storage
  have hgrows := length_le_inserted hc hmem hi
  have hcontent : ∀ src, (content s src).length ≤
      (content { s with trees := Function.update s.trees p.tree storage } src).length := by
    intro src
    rw [hupdate]
    by_cases hsrc : src = p.sourceId
    · rw [hsrc, Function.update_self, content_held hc hmem]
      exact hgrows
    · rw [Function.update_of_ne hsrc]
  have hsize : size s ≤ size { s with trees := Function.update s.trees p.tree storage } := by
    have hupd := size_update hc.toLinked hl storage
    rw [← Tree.size_eq_length, ← Tree.size_eq_length] at hgrows
    omega
  refine ⟨h.room, ?_, ?_, ?_, ?_, h.metas⟩
  · intro tree ht
    rcases List.mem_cons.mp ht with rfl | ht
    · exact hc.allocated _ _ hl
    · exact h.filled tree ht
  · intro src tree ht hfilled
    rcases List.mem_cons.mp hfilled with rfl | hfilled
    · obtain rfl := hc.unshared src p.sourceId _ ht hl
      change content { s with trees := Function.update s.trees p.tree storage } p.sourceId ≠ []
      rw [hupdate, Function.update_self]
      intro hnil
      rw [hnil] at hperm
      cases hperm.length_eq
    · exact ne_nil_of_length_le (hcontent src) (h.stocked src tree ht hfilled)
  · intro x hx
    exact ne_nil_of_length_le (hcontent x.sourceId) (h.heap x hx)
  · have hprunable := prunable_mono hcontent hsize rfl
    exact h.enough.trans hprunable

section prune

variable {n : Nat} {src : String} {heap : List Expiration} {new : List (Int64 × Envelope)}

/-- The frame of a removal: one source gets a new content. -/
structure Shrinks (s s' : Sys) (n : Nat) (src : String) (new : List (Int64 × Envelope))
    (heap : List Expiration) :
    Prop where
  update : content s' = Function.update (content s) src new
  truncation : s'.truncation = .pruning n heap
  config : s'.config = s.config
  next : s'.next = s.next
  filled : s'.filled = s.filled

theorem Shrinks.content_of_ne (h : Shrinks s s' n src new heap) {src' : String} (hne : src' ≠ src) :
    content s' src' = content s src' := by
  rw [h.update, Function.update_of_ne hne]

theorem Shrinks.emptied_ready (hs : Shrinks s s' n src [] heap) (h : Ready s)
    (hindex : s'.storageIndex = s.storageIndex.erase src)
    (hmetas : s'.metas = s.metas.map (MetaCall.forget src)) (hne : ∀ x ∈ heap, x.sourceId ≠ src)
    (hheap : ∀ x ∈ heap, content s x.sourceId ≠ [])
    (henough : n ≤ supply s (heap.map Expiration.sourceId))
    (hguard : ∀ call ∈ s.metas, src ∉ recorded call) :
    Ready s' := by
  refine ⟨hs.config ▸ h.room, ?_, ?_, ?_, ?_, ?_⟩
  · rw [hs.filled, hs.next]
    exact h.filled
  · rw [hs.filled, hindex]
    intro src' tree ht hfilled
    obtain ⟨hsrc, ht⟩ := SyncMap.lookup_erase_eq_some.mp ht
    rw [hs.content_of_ne hsrc]
    exact h.stocked src' tree ht hfilled
  · rw [hs.truncation]
    intro x hx
    rw [hs.content_of_ne (hne x hx)]
    exact hheap x hx
  · rw [prunable, hs.truncation]
    refine henough.trans_eq (supply_congr fun src' hsrc => ?_).symm
    obtain ⟨x, hx, rfl⟩ := List.mem_map.mp hsrc
    exact hs.content_of_ne (hne x hx)
  · rw [hmetas, hindex]
    intro call hcall src' hsrc
    obtain ⟨before, hbefore, rfl⟩ := List.mem_map.mp hcall
    have hbefore' : src' ∈ recorded before := by cases before <;> exact hsrc
    refine AList.mem_erase.mpr ⟨?_, h.metas before hbefore src' hbefore'⟩
    rintro rfl
    exact hguard before hbefore hbefore'

theorem Shrinks.remains_ready (hs : Shrinks s s' n src new heap) (h : Ready s)
    (hindex : s'.storageIndex = s.storageIndex) (hmetas : s'.metas = s.metas) (hnew : new ≠ [])
    {x : Expiration} {rest : List Expiration} (hperm : heap.Perm (x :: rest))
    (hx : x.sourceId = src) (hne : ∀ x ∈ rest, x.sourceId ≠ src)
    (hheap : ∀ x ∈ rest, content s x.sourceId ≠ [])
    (henough : n ≤ new.length + supply s (rest.map Expiration.sourceId)) : Ready s' := by
  have hcontent : ∀ src', content s src' ≠ [] ∨ src' = src → content s' src' ≠ [] := by
    intro src' hsrc
    by_cases heq : src' = src
    · rw [heq, hs.update, Function.update_self]
      exact hnew
    · rw [hs.content_of_ne heq]
      exact hsrc.resolve_right heq
  refine ⟨hs.config ▸ h.room, ?_, ?_, ?_, ?_, ?_⟩
  · rw [hs.filled, hs.next]
    exact h.filled
  · rw [hs.filled, hindex]
    exact fun src' tree ht hfilled => hcontent src' (Or.inl (h.stocked src' tree ht hfilled))
  · rw [hs.truncation]
    intro y hy
    rcases List.mem_cons.mp (hperm.mem_iff.mp hy) with rfl | hy
    · exact hcontent _ (Or.inr hx)
    · exact hcontent _ (Or.inl (hheap y hy))
  · rw [prunable, hs.truncation]
    dsimp only [toPrune]
    rw [supply_perm (hperm.map _), List.map_cons, supply_cons, hx, hs.update, Function.update_self]
    refine henough.trans_eq (congrArg _ (supply_congr fun src' hsrc => ?_).symm)
    obtain ⟨y, hy, rfl⟩ := List.mem_map.mp hsrc
    exact hs.content_of_ne (hne y hy)
  · rw [hmetas, hindex]
    exact h.metas

theorem prune_ready (hc : Coherent s) (h : Ready s) (hg : Guarded s .prune)
    (hs : s.prune = .ok s') : Ready s' := by
  obtain ⟨n, heap, oldest, heap', htrunc, hpop, hpruned⟩ := prune_ok hs
  have hperm := BinaryHeap.pop_perm hpop
  obtain ⟨hl, _, honce⟩ := popped hc.toLinked htrunc hpop
  have hold : content s oldest.sourceId = (s.trees oldest.tree).tree.entries := by rw [content, hl]
  have hheap := h.heap
  have henough := h.enough
  rw [prunable, htrunc] at henough
  dsimp only [toPrune] at henough
  rw [supply_perm (hperm.map _), List.map_cons, supply_cons, hold] at henough
  rw [htrunc] at hheap
  have hheap' : ∀ x ∈ heap', content s x.sourceId ≠ [] :=
    fun x hx => hheap x (hperm.mem_iff.mpr (List.mem_cons_of_mem _ hx))
  have hne : ∀ x ∈ heap', x.sourceId ≠ oldest.sourceId := by
    intro x hx heq
    exact (List.nodup_cons.mp honce).1 (heq ▸ List.mem_map_of_mem hx)
  cases hpruned with
  | nothing hsize =>
      refine absurd ?_ (hheap oldest (hperm.mem_iff.mpr List.mem_cons_self))
      rw [hold]
      exact List.eq_nil_of_length_eq_zero ((Tree.size_eq_length _).symm.trans hsize)
  | @emptied p hleft hsize =>
      refine Shrinks.emptied_ready ⟨content_erase hc.toLinked hl _, rfl, rfl, rfl, rfl⟩ h rfl rfl
        hne hheap' ?_
        (hg oldest (mem_nextOldest htrunc hpop) hsize).2
      rw [← Tree.size_eq_length, hsize] at henough
      omega
  | @remains p q hleft hnext =>
      refine Shrinks.remains_ready ⟨content_update hc.toLinked hl _, rfl, rfl, rfl, rfl⟩
        h rfl rfl ?_
        (BinaryHeap.push_perm _ _) rfl hne hheap' ?_
      · intro hnil
        have hsize := (Tree.size_eq_length ((s.trees oldest.tree).tree.remove p.1)).trans
            (congrArg List.length hnil)
        rw [Tree.left_eq_none.mpr hsize] at hnext
        cases hnext
      · rw [Tree.entries_remove_left hleft, List.length_cons] at henough
        dsimp only
        omega

end prune

end LogCache.Readiness
