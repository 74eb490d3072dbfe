import Mathlib.Logic.Function.Basic
import HDCS.Core.BlockOp

/-!
# The tier policy

`TierPolicy.cpp`: every block of the volume has an entry and a place of its own in
the data store, so there are no lists, and an entry stays with its block. What an
entry records is the status, which the constructor reads from the metadata.

`map` asks `block->entry == UNPROMOTED`. That is a comparison of the pointer, not
of the status, with zero; the chains for an unpromoted block are here because the
source has them.

`ExecuteDataStoreRequest` hands its buffer to the batch that the blocks of one
request form, and returns when the batch has been written. The batch is a
component of its own; what it does for this block is `block_write`.
-/

namespace HDCS

open Lib Function

/-- What a `TierPolicy` is constructed over. -/
structure TierConfig where
  totalSize : Nat
  blockSize : Nat
  /-- What `data_store->block_discard` leaves of the bytes of a block. -/
  cacheDiscard : Bytes → Bytes
  blockSize_pos : 0 < blockSize

def TierConfig.blocksCount (cfg : TierConfig) : Nat := cfg.totalSize / cfg.blockSize

/-- The tier policy and everything its operations act on. -/
structure TierState (n : Nat) where
  /-- `block->entry`. -/
  entry : Nat → Option (Fin n)
  /-- `block->in_discard_process`. -/
  inDiscardProcess : Nat → Bool
  entries : Fin n → Entry
  /-- The data file of the cache. -/
  cacheData : Bytes
  /-- The metadata file of the cache. -/
  blockMeta : Nat → BlockStatus
  /-- The backend image. -/
  backData : Bytes

namespace TierPolicy

/-- `TierPolicy::TierPolicy`: block `b` gets entry `b`, with the persisted status. -/
def new (cfg : TierConfig) (cacheData : Bytes) (blockMeta : Nat → BlockStatus)
    (backData : Bytes) : TierState cfg.blocksCount where
  entry := fun b => if h : b < cfg.blocksCount then some ⟨b, h⟩ else none
  inDiscardProcess := fun _ => false
  entries := fun k => ⟨0, blockMeta k, none⟩
  cacheData := cacheData
  blockMeta := blockMeta
  backData := backData

/-! ## The chains `map` builds -/

section Chains

variable {n : Nat} (cfg : TierConfig) (req : BlockRequest cfg.blockSize) (e : Fin n)

def readUnpromoted : List (BlockOp n) :=
  [.promoteBlockFromBackend .blockBuffer, .executeDataStoreRequest req.block .blockBuffer,
    .readFromBuffer, .demoteBlockBuffer, .updateTierMeta flushed e]

def readPromoted : List (BlockOp n) :=
  if req.size < cfg.blockSize then
    [.readBlockFromCache req.block .blockBuffer, .readFromBuffer, .demoteBlockBuffer]
  else [.readBlockFromCache req.block .dataPtr]

/-- WRITE: a partial one is merged with the block that `source` brings into the scratch block. -/
def writeOver (source : BlockOp n) : List (BlockOp n) :=
  if req.size < cfg.blockSize then
    [source, .writeToBuffer, .executeDataStoreRequest req.block .blockBuffer, .demoteBlockBuffer,
      .updateTierMeta promotedUnflushed e]
  else [.executeDataStoreRequest req.block .dataPtr, .updateTierMeta promotedUnflushed e]

def discard : List (BlockOp n) :=
  [.flushBlockToBackend req.block e .dataPtr, .demoteBlockToCache req.block,
    .updateTierMeta unpromoted e, .releaseDiscardBlock]

def flush : List (BlockOp n) :=
  [.flushBlockToBackend req.block e .dataPtr, .updateTierMeta flushed e]

def promote : List (BlockOp n) :=
  [.promoteBlockFromBackend .dataPtr, .writeBlockToCache req.block .dataPtr,
    .updateTierMeta flushed e]

end Chains

def isUnpromoted {n : Nat} (entry : Option (Fin n)) : Bool := entry.isNone

def map {n : Nat} (cfg : TierConfig) (req : BlockRequest cfg.blockSize) (s : TierState n) :
    List (BlockOp n) × TierState n :=
  let b := req.block
  match s.entry b with
  -- the constructor gives every block an entry, and nothing takes it away
  | none => ([], s)
  | some e =>
    match req.ioType with
    | .read =>
      -- the test is on the pointer, not on the status: it is never met
      if isUnpromoted (s.entry b) then (readUnpromoted cfg req e, s)
      else (readPromoted cfg req, s)
    | .write =>
      if isUnpromoted (s.entry b) then
        (writeOver cfg req e (.promoteBlockFromBackend .blockBuffer), s)
      else (writeOver cfg req e (.readBlockFromCache b .blockBuffer), s)
    | .discard =>
      (discard cfg req e, { s with inDiscardProcess := update s.inDiscardProcess b true })
    | .flush => (flush cfg req e, s)
    -- whatever the status of the block is
    | .promote => (promote cfg req e, s)
    | .demoteCache => ([.doNothing], s)

/-! ## What the operations do -/

def sendUpdateTierMeta {n : Nat} (b : Nat) (statusData : BlockStatus) (e : Fin n)
    (s : TierState n) : TierState n :=
  { s with
    entries := update s.entries e { s.entries e with status := statusData }
    blockMeta := update s.blockMeta b statusData }

/-- `send` of an operation of the chain that serves `req`, when its store calls succeed. -/
def send {n : Nat} (cfg : TierConfig) (req : BlockRequest cfg.blockSize) (op : BlockOp n)
    (x : Bufs × TierState n) : Bufs × TierState n :=
  let m := x.1
  let s := x.2
  let b := req.block
  let bs := cfg.blockSize
  match op with
  | .readFromBuffer =>
    (m.set .dataPtr (memcpy m.dataPtr 0 m.blockBuffer req.offset req.size), s)
  | .writeToBuffer =>
    (m.set .blockBuffer (memcpy m.blockBuffer req.offset m.dataPtr 0 req.size), s)
  | .promoteBlockFromBackend d => (m.set d (memcpy (m.get d) 0 s.backData (b * bs) bs), s)
  | .readBlockFromCache id d => (m.set d (memcpy (m.get d) 0 s.cacheData (id * bs) bs), s)
  | .writeBlockToCache id d =>
    (m, { s with cacheData := memcpy s.cacheData (id * bs) (m.get d) 0 bs })
  -- what the batch does to this block, once it is submitted
  | .executeDataStoreRequest id d =>
    (m, { s with cacheData := memcpy s.cacheData (id * bs) (m.get d) 0 bs })
  | .demoteBlockToCache id =>
    (m, { s with
      cacheData :=
        memcpy s.cacheData (id * bs) (cfg.cacheDiscard (block bs id s.cacheData)) 0 bs })
  | .updateTierMeta statusData e => (m, sendUpdateTierMeta b statusData e s)
  | .releaseDiscardBlock =>
    (m, { s with inDiscardProcess := update s.inDiscardProcess b false })
  | .flushBlockToBackend id e d =>
    -- a block with any other status is taken to be on the backend
    if (s.entries e).status = promotedUnflushed then
      let m := m.set d (memcpy (m.get d) 0 s.cacheData (id * bs) bs)
      (m, { s with backData := memcpy s.backData (b * bs) (m.get d) 0 bs })
    else (m, s)
  -- freeing the scratch block and doing nothing; the others are in no chain of this policy
  | _ => (m, s)

/-- The tier policy as the core sees it. -/
abbrev policy (cfg : TierConfig) : Policy cfg.blocksCount cfg.blockSize where
  State := TierState cfg.blocksCount
  map := map cfg
  send := send cfg
  inDiscardProcess := TierState.inDiscardProcess
  entry := TierState.entry

end TierPolicy

end HDCS
