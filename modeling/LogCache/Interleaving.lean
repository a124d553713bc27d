import LogCache.StoreSteps
import LogCache.Runs

namespace LogCache.Interleaving

open Envelopes EnvelopeStore

/-- A Put between its two critical sections, holding a pointer to a tree. -/
structure PutCall where
  envelope : Envelope
  sourceId : String
  tree : Nat
deriving DecidableEq

structure Expiration where
  timestamp : Int64
  sourceId : String
  tree : Nat
deriving DecidableEq

/-- Where the truncation loop is. `due` holds the sources that the range over
the index still has to visit. -/
inductive Truncation
  | idle
  | loaded (numberToPrune : Nat)
  | building (numberToPrune : Nat) (due : List String) (heap : List Expiration)
  | pruning (remaining : Nat) (heap : List Expiration)
deriving DecidableEq

inductive MetaCall
  | first (due : List String) (report : SyncMap.Map String MetaInfo)
  | second (unread : List String) (report : SyncMap.Map String MetaInfo)

/-- The store with its trees behind pointers, and every call in progress.
`started`, `returned`, `removed` and `filled` are history: the envelopes of the
Puts that began and that returned, the envelopes that were taken out, and the
trees that a completed Put has inserted into. -/
structure Sys where
  config : Config
  counters : Counters
  trees : Nat → Storage
  next : Nat
  storageIndex : SyncMap.Map String Nat
  puts : List PutCall
  truncation : Truncation
  metas : List MetaCall
  started : List Envelope
  returned : List Envelope
  removed : List Envelope
  filled : List Nat

def initial (maxPerSource prunesPerGC : Int) : Sys where
  config := ⟨maxPerSource, 4000, prunesPerGC⟩
  counters := ⟨0, MIN_INT64, 0, 0, 0, 0⟩
  trees := fun _ => .new
  next := 0
  storageIndex := ∅
  puts := []
  truncation := .idle
  metas := []
  started := []
  returned := []
  removed := []
  filled := []

/-- The critical sections, each one atomic step. `i` picks a call in progress. -/
inductive Event
  | putBegin (e : Envelope) (sourceId : String)
  | putEnd (i : Nat)
  | truncateBegin (quantity : Int)
  | rangeBegin
  | heapVisit (sourceId : String)
  | rangeEnd
  | prune
  | truncateEnd
  | metaBegin
  | metaVisit (i : Nat) (sourceId : String)
  | metaTurn (i : Nat)
  | metaLoad (i : Nat) (sourceId : String)
  | metaEnd (i : Nat)

def evicted (config : Config) (storage : Storage) : List Envelope :=
  if config.maxPerSource ≤ storage.tree.size then (storage.tree.left.map Prod.snd).toList else []

/-- A source that leaves the index need not be visited any more. -/
def MetaCall.forget (sourceId : String) : MetaCall → MetaCall
  | .first due report => .first (due.erase sourceId) report
  | .second unread report => .second unread report

namespace Sys

def putBegin (s : Sys) (e : Envelope) (sourceId : String) : Sys :=
  let s := { s with counters := { s.counters with ingress := s.counters.ingress + 1 },
                    started := e :: s.started }
  match s.storageIndex.lookup sourceId with
  | some tree => { s with puts := s.puts ++ [⟨e, sourceId, tree⟩] }
  | none =>
      { s with trees := Function.update s.trees s.next .new, next := s.next + 1,
               storageIndex := s.storageIndex.insert sourceId s.next, puts :=
                 s.puts ++ [⟨e, sourceId, s.next⟩] }

def putEnd (s : Sys) (i : Nat) : Except Stop Sys :=
  match s.puts[i]? with
  | none => .error .disabled
  | some p =>
      match (s.trees p.tree).insertOrSwap s.config s.counters p.envelope with
      | .error e => .error (.panic e)
      | .ok (counters, storage) =>
          .ok { s with counters := counters, trees := Function.update s.trees p.tree storage,
                       puts := s.puts.eraseIdx i, returned := p.envelope :: s.returned,
                       removed := evicted s.config (s.trees p.tree) ++ s.removed, filled :=
                         p.tree :: s.filled }

def truncateBegin (s : Sys) (quantity : Int) : Except Stop Sys :=
  match s.truncation with
  | .idle =>
      if quantity = 0 then .ok { s with counters := { s.counters with consecutiveTruncation := 0 } }
      else .ok { s with truncation := .loaded (numberToPrune s.counters.count quantity).toNat }
  | _ => .error .disabled

def rangeBegin (s : Sys) : Except Stop Sys :=
  match s.truncation with
  | .loaded n => .ok { s with truncation := .building n s.storageIndex.keys [] }
  | _ => .error .disabled

def heapVisit (s : Sys) (sourceId : String) : Except Stop Sys :=
  match s.truncation, s.storageIndex.lookup sourceId with
  | .building n due heap, some tree =>
      if sourceId ∈ heap.map Expiration.sourceId then .error .disabled
      else
        match (s.trees tree).tree.left with
        | none => .error (.panic .nilDereference)
        | some (oldestTimestamp, _) =>
            let heap := BinaryHeap.push Expiration.timestamp heap ⟨oldestTimestamp, sourceId, tree⟩
            .ok { s with truncation := .building n (due.erase sourceId) heap }
  | _, _ => .error .disabled

def rangeEnd (s : Sys) : Except Stop Sys :=
  match s.truncation with
  | .building n [] heap => .ok { s with truncation := .pruning n heap }
  | _ => .error .disabled

/-- `removeOldestEnvelope` for the oldest tree on the heap, which goes back on
the heap while it has entries. -/
def pruneTree (s : Sys) (n : Nat) (oldest : Expiration) (heap : List Expiration) :
    Except Stop Sys :=
  let taken := ((s.trees oldest.tree).tree.left.map Prod.snd).toList
  match (s.trees oldest.tree).removeOldest s.counters with
  | .error e => .error (.panic e)
  | .ok .nothing => .ok { s with truncation := .pruning n heap }
  | .ok (.emptied counters storage) =>
      .ok { s with counters := counters, trees := Function.update s.trees oldest.tree storage,
                   storageIndex := s.storageIndex.erase oldest.sourceId, truncation :=
                     .pruning n heap,
                   metas := s.metas.map (MetaCall.forget oldest.sourceId), removed :=
                     taken ++ s.removed }
  | .ok (.remains counters storage timestamp) =>
      let heap := BinaryHeap.push Expiration.timestamp heap
          ⟨timestamp, oldest.sourceId, oldest.tree⟩
      .ok { s with counters := counters, trees := Function.update s.trees oldest.tree storage,
                   truncation := .pruning n heap, removed := taken ++ s.removed }

def prune (s : Sys) : Except Stop Sys :=
  match s.truncation with
  | .pruning (n + 1) heap =>
      match BinaryHeap.pop Expiration.timestamp heap with
      | none => .error (.panic .heapEmpty)
      | some (oldest, heap) => s.pruneTree n oldest heap
  | _ => .error .disabled

def truncateEnd (s : Sys) : Except Stop Sys :=
  match s.truncation with
  | .pruning 0 heap =>
      .ok { s with counters := s.counters.afterPruning s.config
                     (heap.getLast?.map Expiration.timestamp)
                   truncation := .idle }
  | _ => .error .disabled

def metaVisit (s : Sys) (i : Nat) (sourceId : String) : Except Stop Sys :=
  match s.metas[i]?, s.storageIndex.lookup sourceId with
  | some (.first due report), some tree =>
      if sourceId ∈ report then .error .disabled
      else
        let report := report.insert sourceId (s.trees tree).metaInfo
        .ok { s with metas := s.metas.set i (.first (due.erase sourceId) report) }
  | _, _ => .error .disabled

def metaTurn (s : Sys) (i : Nat) : Except Stop Sys :=
  match s.metas[i]? with
  | some (.first [] report) => .ok { s with metas := s.metas.set i (.second report.keys report) }
  | _ => .error .disabled

/-- The body of the second pass: the assertion on what `Load` returned fails
if the source has left the index. -/
def metaLoad (s : Sys) (i : Nat) (sourceId : String) : Except Stop Sys :=
  match s.metas[i]? with
  | some (.second unread report) =>
      if sourceId ∈ unread then
        match s.storageIndex.lookup sourceId with
        | none => .error (.panic .interfaceConversion)
        | some tree =>
            let info := { (s.trees tree).metaInfo with count := (s.trees tree).tree.size }
            .ok { s with metas := s.metas.set i
                           (.second (unread.erase sourceId) (report.insert sourceId info)) }
      else .error .disabled
  | _ => .error .disabled

def metaEnd (s : Sys) (i : Nat) : Except Stop Sys :=
  match s.metas[i]? with
  | some (.second [] _) => .ok { s with metas := s.metas.eraseIdx i }
  | _ => .error .disabled

end Sys

def step (s : Sys) : Event → Except Stop Sys
  | .putBegin e sourceId => .ok (s.putBegin e sourceId)
  | .putEnd i => s.putEnd i
  | .truncateBegin quantity => s.truncateBegin quantity
  | .rangeBegin => s.rangeBegin
  | .heapVisit sourceId => s.heapVisit sourceId
  | .rangeEnd => s.rangeEnd
  | .prune => s.prune
  | .truncateEnd => s.truncateEnd
  | .metaBegin => .ok { s with metas := s.metas ++ [.first s.storageIndex.keys ∅] }
  | .metaVisit i sourceId => s.metaVisit i sourceId
  | .metaTurn i => s.metaTurn i
  | .metaLoad i sourceId => s.metaLoad i sourceId
  | .metaEnd i => s.metaEnd i

end LogCache.Interleaving
