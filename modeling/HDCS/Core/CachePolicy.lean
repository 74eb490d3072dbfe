import Mathlib.Data.List.FinRange
import Mathlib.Logic.Function.Basic
import HDCS.Core.BlockOp
import HDCS.Core.LruList

/-!
# The cache policy

`CachePolicy.cpp`: the constructor that rebuilds the mapping from the metadata
table, and `map`, which looks a block up and strings together the operations
that serve a request for it.

The state is everything a chain can reach: the policy's entries and lists, the
two fields of `Block` that policies and operations write (`entry` and
`in_discard_process`), the cache data and metadata, and the backend. The timer
is a component of its own; what this one does with it is call it, so the calls
are recorded in order.

The stores are byte arrays. What `block_discard` leaves in a block depends on
the engine (a punched hole reads as zeros, the key-value store and the backend
ignore the call), so it is a parameter of the configuration, as a function of
what the block held; it has no access to any other block.
-/

namespace HDCS

open Lib LruList Function

/-- `CACHE_MODE_TYPE`. -/
inductive CacheMode where
  | writeBack
  | readOnly
  deriving DecidableEq, Repr

/-- What a `CachePolicy` is constructed over. -/
structure CacheConfig where
  totalSize : Nat
  cacheSize : Nat
  blockSize : Nat
  timeoutNanoseconds : Nat
  cacheMode : CacheMode
  /-- What `data_store->block_discard` leaves of the bytes of a slot. -/
  cacheDiscard : Bytes → Bytes
  /-- What `back_store->block_discard` leaves of the bytes of a block. -/
  backDiscard : Bytes → Bytes
  blockSize_pos : 0 < blockSize

namespace CacheConfig

def blocksCount (cfg : CacheConfig) : Nat := cfg.totalSize / cfg.blockSize + 1

def cacheBlocksCount (cfg : CacheConfig) : Nat := cfg.cacheSize / cfg.blockSize + 1

/--
How often the loop `for (int32_t i = cache_blocks_count - 1; i >= 0; i--)` runs:
the 64-bit count is converted to 32 bits, signed, before it is compared.
-/
def entriesCount (cfg : CacheConfig) : Nat :=
  ((BitVec.ofNat 32 (cfg.cacheBlocksCount - 1)).toInt + 1).toNat

end CacheConfig

/-- `SimpleBlockStore::block_discard`: `fallocate` punches a hole, which reads as zeros. -/
def punchHole : Bytes → Bytes := fun _ _ => 0

inductive TimerCall where
  | cancelEvent (c : TimeoutComp)
  | addEventAfter (nanoseconds : Nat) (c : TimeoutComp)
  deriving DecidableEq, Repr

/-- The cache policy and everything its operations act on. -/
structure CacheState (n : Nat) where
  /-- `block->entry`. -/
  entry : Nat → Option (Fin n)
  /-- `block->in_discard_process`. -/
  inDiscardProcess : Nat → Bool
  entries : Fin n → Entry
  freeLru : List (Fin n)
  dirtyLru : List Nat
  cleanLru : List Nat
  /-- How many timeout completions `map` has made. -/
  timeoutComps : Nat
  timerCalls : List TimerCall
  /-- The data file of the cache. -/
  cacheData : Bytes
  /-- The metadata file of the cache. -/
  blockMeta : Nat → BlockStatus
  /-- The backend image. -/
  backData : Bytes

namespace CachePolicy

/-! ## Construction -/

def pushEntries : Nat → List Entry → List Entry
  | 0, acc => acc
  | i + 1, acc => pushEntries i (acc ++ [⟨UInt32.ofNat i, unpromoted, none⟩])

theorem length_pushEntries : ∀ (i : Nat) (acc : List Entry),
    (pushEntries i acc).length = acc.length + i
  | 0, acc => rfl
  | i + 1, acc => by
    rw [pushEntries, length_pushEntries i, List.length_append, List.length_singleton]
    omega

def newEntries (n : Nat) (k : Fin n) : Entry :=
  (pushEntries n []).get (k.cast (by rw [length_pushEntries]; simp))

/-- `EntryToBlock_t`. -/
structure EntryToBlock where
  valid : Bool
  block : Nat
  status : BlockStatus

/-- One round of the loop that loads the metadata. -/
def loadMeta (blockMeta : Nat → BlockStatus) (m : Nat → EntryToBlock) (blockId : Nat) :
    Nat → EntryToBlock :=
  let status := blockMeta blockId
  if status >>> 30 ≠ 0 then
    update m (status &&& 0x3FFFFFFF).toNat
      { block := blockId, status := status &&& 0xC0000000, valid := true }
  else m

def entryToBlockMap (cfg : CacheConfig) (blockMeta : Nat → BlockStatus) : Nat → EntryToBlock :=
  (List.range cfg.blocksCount).foldl (loadMeta blockMeta) fun _ => ⟨false, 0, 0⟩

def pairEntry {n : Nat} (m : Nat → EntryToBlock) (s : CacheState n) (k : Fin n) : CacheState n :=
  if (m k).valid then
    let s := { s with
      entries := update s.entries k { s.entries k with status := (m k).status }
      entry := update s.entry (m k).block (some k) }
    if (m k).status = promotedUnflushed then
      { s with dirtyLru := touchKey (m k).block s.dirtyLru }
    else if (m k).status = flushed then
      { s with cleanLru := touchKey (m k).block s.cleanLru }
    else s
  else { s with freeLru := touchKey k s.freeLru }

/-- The state before the loop over `entries`: every block without an entry, all lists empty. -/
def unpaired (n : Nat) (cacheData : Bytes) (blockMeta : Nat → BlockStatus) (backData : Bytes) :
    CacheState n where
  entry := fun _ => none
  inDiscardProcess := fun _ => false
  entries := newEntries n
  freeLru := []
  dirtyLru := []
  cleanLru := []
  timeoutComps := 0
  timerCalls := []
  cacheData := cacheData
  blockMeta := blockMeta
  backData := backData

/-- `CachePolicy::CachePolicy`. -/
def new (cfg : CacheConfig) (cacheData : Bytes) (blockMeta : Nat → BlockStatus)
    (backData : Bytes) : CacheState cfg.entriesCount :=
  (List.finRange cfg.entriesCount).foldl (pairEntry (entryToBlockMap cfg blockMeta))
    (unpaired cfg.entriesCount cacheData blockMeta backData)

/-! ## The chains `map` builds

Each list is in the order the operations are sent; the source builds it from its
last operation to its first.
-/

section Chains

variable {n : Nat} (cfg : CacheConfig) (req : BlockRequest cfg.blockSize)
  (e : Fin n) (id : UInt32) (comp : Option TimeoutComp)

def readHit : List (BlockOp n) :=
  if req.size < cfg.blockSize then
    -- partial read
    [.readBlockFromCache id.toNat .blockBuffer, .readFromBuffer, .demoteBlockBuffer,
      .updateLRU (some e) e comp]
  else
    [.readBlockFromCache id.toNat .dataPtr, .updateLRU (some e) e comp]

def readMiss : List (BlockOp n) :=
  if req.size < cfg.blockSize then
    [.promoteBlockFromBackend .blockBuffer, .writeBlockToCache id.toNat .blockBuffer,
      .readFromBuffer, .demoteBlockBuffer, .updateCacheMeta (some e) flushed id,
      .updateLRU (some e) e comp]
  else
    [.promoteBlockFromBackend .dataPtr, .writeBlockToCache id.toNat .dataPtr,
      .updateCacheMeta (some e) flushed id, .updateLRU (some e) e comp]

def recordWrite : List (BlockOp n) :=
  if cfg.timeoutNanoseconds ≠ 0 then
    [.updateCacheMeta (some e) promotedUnflushed id, .updateLRU (some e) e comp]
  else
    [.writeToBackend .dataPtr, .updateCacheMeta (some e) flushed id, .updateLRU (some e) e comp]

def writeHit : List (BlockOp n) :=
  if req.size < cfg.blockSize then
    -- partial write; the slot is read into the client's buffer, not into the scratch block
    [.readBlockFromCache id.toNat .dataPtr, .writeToBuffer,
      .writeBlockToCache id.toNat .blockBuffer, .demoteBlockBuffer] ++ recordWrite cfg e id comp
  else
    .writeBlockToCache id.toNat .dataPtr :: recordWrite cfg e id comp

def writeMiss : List (BlockOp n) :=
  if req.size < cfg.blockSize then
    [.promoteFromBackend .blockBuffer, .writeToBuffer,
      .writeBlockToCache id.toNat .blockBuffer, .demoteBlockBuffer] ++ recordWrite cfg e id comp
  else
    .writeBlockToCache id.toNat .dataPtr :: recordWrite cfg e id comp

def dropEntry : List (BlockOp n) :=
  [.demoteBlockToCache id.toNat, .resetCacheEntry e, .updateCacheMeta none unpromoted 0,
    .updateLRU none e comp, .releaseDiscardBlock]

/-- DEMOTE_CACHE of a block that has an entry. -/
def demote : List (BlockOp n) :=
  .flushBlockToBackend id.toNat e .dataPtr :: dropEntry e id comp

def discard : List (BlockOp n) := .discardBlockToBackend :: dropEntry e id comp

/-- FLUSH of a block that has an entry. -/
def flush : List (BlockOp n) :=
  [.flushBlockToBackend id.toNat e .dataPtr, .updateCacheMeta (some e) flushed id,
    .updateLRU (some e) e comp]

end Chains

/-! ## `map` -/

def newTimeoutComp (cfg : CacheConfig) (serial block : Nat) : Option TimeoutComp :=
  if cfg.timeoutNanoseconds ≠ 0 then some ⟨serial, block⟩ else none

def attach {n : Nat} (b : Nat) (e : Fin n) (s : CacheState n) : CacheState n :=
  { s with freeLru := remove e s.freeLru, entry := update s.entry b (some e) }

def lockDiscard {n : Nat} (b : Nat) (s : CacheState n) : CacheState n :=
  { s with inDiscardProcess := update s.inDiscardProcess b true }

def map {n : Nat} (cfg : CacheConfig) (req : BlockRequest cfg.blockSize) (s : CacheState n) :
    List (BlockOp n) × CacheState n :=
  let b := req.block
  -- made for every request, also for those whose chain does not take it
  let comp := newTimeoutComp cfg s.timeoutComps b
  let s := { s with timeoutComps := s.timeoutComps + comp.toList.length }
  let id := fun e => (s.entries e).entryId
  match req.ioType with
  | .read =>
    match s.entry b with
    | some e => (readHit cfg req e (id e) comp, s)
    | none =>
      match getHead s.freeLru with
      | some e => (readMiss cfg req e (id e) comp, attach b e s)
      -- no entry is free: around the cache
      | none => ([.promoteFromBackend .dataPtr], s)
  | .write =>
    -- the entry, if the block has one, stays attached
    if cfg.cacheMode = .readOnly then ([.writeToBackend .dataPtr], s)
    else
      match s.entry b with
      | some e => (writeHit cfg req e (id e) comp, s)
      | none =>
        match getHead s.freeLru with
        | some e => (writeMiss cfg req e (id e) comp, attach b e s)
        | none => ([.writeToBackend .dataPtr], s)
  | .demoteCache =>
    match s.entry b with
    | some e => (demote e (id e) comp, lockDiscard b s)
    | none => ([], s)
  | .discard =>
    match s.entry b with
    | some e => (discard e (id e) comp, lockDiscard b s)
    | none => ([.discardBlockToBackend, .releaseDiscardBlock], lockDiscard b s)
  | .flush =>
    match s.entry b with
    | some e => (flush e (id e) comp, s)
    | none => ([], s)
  | .promote => ([.doNothing], s)

end CachePolicy

end HDCS
