import LogCache.AvlTree
import LogCache.BinaryHeap
import LogCache.Envelopes
import LogCache.SyncMap

namespace LogCache.EnvelopeStore

open AvlTree Envelopes

structure Config where
  maxPerSource : Int
  maxTimestampFudge : Nat
  prunesPerGC : Int
deriving DecidableEq

/-- The atomic fields of the store and the counters it reports; `collections`
counts the calls of `runtime.GC`. -/
structure Counters where
  count : Int
  oldestTimestamp : Int64
  consecutiveTruncation : Int
  ingress : Nat
  expired : Nat
  collections : Nat
deriving DecidableEq

structure MetaInfo where
  count : Int
  expired : Nat
  oldestTimestamp : Int64
  newestTimestamp : Int64
deriving DecidableEq

structure Storage where
  metaInfo : MetaInfo
  tree : Tree Int64 Envelope

structure Store where
  config : Config
  counters : Counters
  storageIndex : SyncMap.Map String Storage

structure StorageExpiration where
  timestamp : Int64
  sourceId : String
deriving DecidableEq

def MIN_INT64 : Int64 := Int64.maxValue

def newStore (maxPerSource prunesPerGC : Int) : Store where
  config := ⟨maxPerSource, 4000, prunesPerGC⟩
  counters := ⟨0, MIN_INT64, 0, 0, 0, 0⟩
  storageIndex := ∅

def Storage.new : Storage := ⟨⟨0, 0, 0, 0⟩, .new⟩

/-- The search for a key that is not taken: `remaining` more values of
`timestampFudge` may be tried. -/
def fudgeLoop (tree : Tree Int64 Envelope) (timestamp : Int64) :
    (remaining timestampFudge : Nat) → Nat
  | 0, timestampFudge => timestampFudge
  | remaining + 1, timestampFudge =>
      match tree.get (timestamp + Int64.ofNat timestampFudge) with
      | some _ => fudgeLoop tree timestamp remaining (timestampFudge + 1)
      | none => timestampFudge

def fudgedKey (config : Config) (tree : Tree Int64 Envelope) (timestamp : Int64) : Int64 :=
  timestamp + Int64.ofNat (fudgeLoop tree timestamp config.maxTimestampFudge 0)

/-- The first half of `insertOrSwap`: at capacity the oldest entry makes room,
otherwise the store grows by one. -/
def Storage.makeRoom (config : Config) (counters : Counters) (storage : Storage) :
    Except Panic (Counters × Storage) :=
  if config.maxPerSource ≤ storage.tree.size then
    match storage.tree.left with
    | none => .error .nilDereference
    | some (oldestTimestamp, _) =>
        .ok ({ counters with expired := counters.expired + 1 },
          { metaInfo := { storage.metaInfo with expired := storage.metaInfo.expired + 1 }
            tree := storage.tree.remove oldestTimestamp })
  else
    .ok ({ counters with count := counters.count + 1 }, storage)

/-- The second half: the envelope goes under its fudged key, and the
timestamps of the source and of the store follow. -/
def Storage.insert (config : Config) (counters : Counters) (storage : Storage) (e : Envelope) :
    Except Panic (Counters × Storage) :=
  let tree := storage.tree.put (fudgedKey config storage.tree e.timestamp) e
  let newestTimestamp :=
    if storage.metaInfo.newestTimestamp < e.timestamp then e.timestamp
    else storage.metaInfo.newestTimestamp
  match tree.left with
  | none => .error .nilDereference
  | some (oldestTimestamp, _) =>
      .ok ({ counters with oldestTimestamp :=
              if oldestTimestamp < counters.oldestTimestamp then oldestTimestamp
              else counters.oldestTimestamp },
        { metaInfo := { storage.metaInfo with
            newestTimestamp := newestTimestamp, oldestTimestamp := oldestTimestamp }
          tree := tree })

def Storage.insertOrSwap (config : Config) (counters : Counters) (storage : Storage)
    (e : Envelope) :
    Except Panic (Counters × Storage) := do
  let (counters, storage) ← storage.makeRoom config counters
  storage.insert config counters e

/-- What one removal does to a tree: it may find nothing, take the last entry,
or leave a new oldest key. -/
inductive Removal
  | nothing
  | emptied (counters : Counters) (storage : Storage)
  | remains (counters : Counters) (storage : Storage) (oldestTimestamp : Int64)

def Storage.removeOldest (counters : Counters) (storage : Storage) : Except Panic Removal :=
  if storage.tree.size = 0 then .ok .nothing
  else
    let counters := { counters with count := counters.count - 1, expired := counters.expired + 1 }
    match storage.tree.left with
    | none => .error .nilDereference
    | some (oldestKey, _) =>
        let tree := storage.tree.remove oldestKey
        if tree.size = 0 then .ok (.emptied counters { storage with tree := tree })
        else
          match tree.left with
          | none => .error .nilDereference
          | some (oldestTimestamp, _) =>
              .ok (.remains counters
                { metaInfo := { storage.metaInfo with
                    expired := storage.metaInfo.expired + 1, oldestTimestamp := oldestTimestamp }
                  tree := tree }
                oldestTimestamp)

namespace Store

def getOrInitializeStorage (s : Store) (sourceId : String) : Storage × Bool × Store :=
  match s.storageIndex.lookup sourceId with
  | some storage => (storage, false, s)
  | none => (.new, true, { s with storageIndex := s.storageIndex.insert sourceId .new })

def put (s : Store) (e : Envelope) (sourceId : String) : Except Panic Store := do
  let s := { s with counters := { s.counters with ingress := s.counters.ingress + 1 } }
  let (storage, _, s) := s.getOrInitializeStorage sourceId
  let (counters, storage) ← storage.insertOrSwap s.config s.counters e
  return { s with counters := counters, storageIndex := s.storageIndex.insert sourceId storage }

def buildHeapLoop (heap : List StorageExpiration) :
    List (Σ _ : String, Storage) → Except Panic (List StorageExpiration)
  | [] => .ok heap
  | ⟨sourceId, storage⟩ :: rest =>
      match storage.tree.left with
      | none => .error .nilDereference
      | some (oldestTimestamp, _) =>
          buildHeapLoop (BinaryHeap.push StorageExpiration.timestamp heap
            ⟨oldestTimestamp, sourceId⟩) rest

def buildExpirationHeap (s : Store) (order : SyncMap.RangeOrder String Storage) :
    Except Panic (List StorageExpiration) :=
  buildHeapLoop (BinaryHeap.init StorageExpiration.timestamp [])
    (order.visit s.storageIndex.entries)

/-- The tree is the one indexed under `sourceId`: with nothing running beside
the truncation, a tree leaves the index only when it is emptied. -/
def removeOldestEnvelope (s : Store) (sourceId : String) : Except Panic (Store × Option Int64) :=
  match s.storageIndex.lookup sourceId with
  | none => .ok (s, none)
  | some storage => do
      match ← storage.removeOldest s.counters with
      | .nothing => return (s, none)
      | .emptied counters _ =>
          return ({ s with counters := counters, storageIndex := s.storageIndex.erase sourceId },
            none)
      | .remains counters storage oldestTimestamp =>
          return ({ s with counters := counters,
                           storageIndex := s.storageIndex.insert sourceId storage },
            some oldestTimestamp)

def pruneStep (s : Store) (heap : List StorageExpiration) :
    Except Panic (Store × List StorageExpiration) :=
  match BinaryHeap.pop StorageExpiration.timestamp heap with
  | none => .error .heapEmpty
  | some (oldest, heap) => do
      match ← s.removeOldestEnvelope oldest.sourceId with
      | (s, some newOldestTimestamp) =>
          return (s, BinaryHeap.push StorageExpiration.timestamp heap
            ⟨newOldestTimestamp, oldest.sourceId⟩)
      | (s, none) => return (s, heap)

def pruneLoop : Nat → Store → List StorageExpiration → Except Panic (Store × List StorageExpiration)
  | 0, s, heap => .ok (s, heap)
  | n + 1, s, heap => do
      let (s, heap) ← s.pruneStep heap
      pruneLoop n s heap

end Store

/-- The end of `truncate`, with the timestamp that is popped off what is left of
the heap: the last element of the slice, not the root of the heap. -/
def Counters.afterPruning (config : Config) (counters : Counters)
    (oldest : Option Int64) : Counters :=
  match oldest with
  | none => { counters with oldestTimestamp := MIN_INT64 }
  | some timestamp =>
      let consecutiveTruncation := counters.consecutiveTruncation + 1
      if config.prunesPerGC ≤ consecutiveTruncation then
        { counters with oldestTimestamp := timestamp, consecutiveTruncation := 0,
                        collections := counters.collections + 1 }
      else
        { counters with oldestTimestamp := timestamp,
                        consecutiveTruncation := consecutiveTruncation }

/-- No more entries are pruned than the store believes to have. -/
def numberToPrune (storeCount quantity : Int) : Int :=
  if storeCount < quantity then storeCount else quantity

namespace Store

def truncate (s : Store) (quantity : Int) (order : SyncMap.RangeOrder String Storage) :
    Except Panic Store :=
  if quantity = 0 then .ok { s with counters := { s.counters with consecutiveTruncation := 0 } }
  else do
    let heap ← s.buildExpirationHeap order
    let (s, heap) ← pruneLoop (numberToPrune s.counters.count quantity).toNat s heap
    return { s with counters := s.counters.afterPruning s.config
                      (heap.getLast?.map StorageExpiration.timestamp) }

end Store

inductive Op
  | put (e : Envelope) (sourceId : String)
  | truncate (quantity : Int) (order : SyncMap.RangeOrder String Storage)

def exec (s : Store) : Op → Except Panic Store
  | .put e sourceId => s.put e sourceId
  | .truncate quantity order => s.truncate quantity order

end LogCache.EnvelopeStore
