import HDCS.Core.CachePolicy

/-!
# What the operations of the cache do

`send` of every operation the cache policy builds, when the store calls it makes
succeed. A store call moves bytes between a buffer and a range of a file;
`block_read` and `block_write` address whole blocks, `read` and `write` the
volume.

`FlushBlockToBackend` makes two store calls and keeps both results in one variable. What it
does when they fail is in `sendFlushBlock`, and `sendOps` is a chain with such an operation.
-/

namespace HDCS.CachePolicy

open Lib LruList Function

variable {n : Nat}

def cancelTimeout (e : Fin n) (s : CacheState n) : CacheState n :=
  { s with timerCalls := s.timerCalls ++ (s.entries e).timeoutComp.toList.map .cancelEvent }

def setTimeoutComp (e : Fin n) (c : Option TimeoutComp) (s : CacheState n) : CacheState n :=
  { s with entries := update s.entries e { s.entries e with timeoutComp := c } }

def setStatus (e : Fin n) (x : BlockStatus) (s : CacheState n) : CacheState n :=
  { s with entries := update s.entries e { s.entries e with status := x } }

def addTimeout (cfg : CacheConfig) (c : Option TimeoutComp) (s : CacheState n) : CacheState n :=
  if cfg.timeoutNanoseconds ≠ 0 then
    { s with timerCalls :=
        s.timerCalls ++ c.toList.map (.addEventAfter cfg.timeoutNanoseconds) }
  else s

def sendUpdateLRU (cfg : CacheConfig) (b : Nat) (status : Option (Fin n)) (entry : Fin n)
    (timeoutCompDef : Option TimeoutComp) (s : CacheState n) : CacheState n :=
  match status with
  -- a chain that drops the entry passes no status
  | none =>
    { s with
      cleanLru := remove b s.cleanLru
      dirtyLru := remove b s.dirtyLru
      freeLru := touchKey entry s.freeLru }
  | some e =>
    if (s.entries e).status = promotedUnflushed then
      -- the timeout starts anew with every WRITE
      addTimeout cfg timeoutCompDef (setTimeoutComp entry timeoutCompDef (cancelTimeout entry
        { s with cleanLru := remove b s.cleanLru, dirtyLru := touchKey b s.dirtyLru }))
    else
      { setTimeoutComp entry none (cancelTimeout entry s) with
        dirtyLru := remove b s.dirtyLru
        cleanLru := touchKey b s.cleanLru }

def setMeta (b : Nat) (x : BlockStatus) (s : CacheState n) : CacheState n :=
  { s with blockMeta := update s.blockMeta b x }

/-- `UpdateCacheMeta::send`: with no status to set, the word is written as it is. -/
def sendUpdateCacheMeta (b : Nat) (status : Option (Fin n)) (statusData : BlockStatus)
    (entryId : UInt32) (s : CacheState n) : CacheState n :=
  match status with
  | some e => setMeta b (statusData ||| entryId) (setStatus e statusData s)
  | none => setMeta b statusData s

def send (cfg : CacheConfig) (req : BlockRequest cfg.blockSize) (op : BlockOp n)
    (x : Bufs × CacheState n) : Bufs × CacheState n :=
  let m := x.1
  let s := x.2
  let b := req.block
  let bs := cfg.blockSize
  match op with
  | .demoteBlockBuffer => (m, s)  -- the scratch block is freed, and nothing reads it again
  | .readFromBuffer =>
    (m.set .dataPtr (memcpy m.dataPtr 0 m.blockBuffer req.offset req.size), s)
  | .writeToBuffer =>
    (m.set .blockBuffer (memcpy m.blockBuffer req.offset m.dataPtr 0 req.size), s)
  | .promoteBlockFromBackend d => (m.set d (memcpy (m.get d) 0 s.backData (b * bs) bs), s)
  | .promoteFromBackend d =>
    (m.set d (memcpy (m.get d) 0 s.backData (b * bs + req.offset) req.size), s)
  | .writeToBackend d =>
    (m, { s with backData := memcpy s.backData (b * bs + req.offset) (m.get d) 0 req.size })
  | .readBlockFromCache id d => (m.set d (memcpy (m.get d) 0 s.cacheData (id * bs) bs), s)
  | .writeBlockToCache id d =>
    (m, { s with cacheData := memcpy s.cacheData (id * bs) (m.get d) 0 bs })
  | .demoteBlockToCache id =>
    (m, { s with
      cacheData :=
        memcpy s.cacheData (id * bs) (cfg.cacheDiscard (block bs id s.cacheData)) 0 bs })
  | .discardBlockToBackend =>
    (m, { s with
      backData := memcpy s.backData (b * bs) (cfg.backDiscard (block bs b s.backData)) 0 bs })
  | .updateCacheMeta status statusData entryId =>
    (m, sendUpdateCacheMeta b status statusData entryId s)
  | .updateLRU status entry timeoutCompDef =>
    (m, sendUpdateLRU cfg b status entry timeoutCompDef s)
  | .resetCacheEntry e =>
    (m, { setTimeoutComp e none (setStatus e unpromoted s) with
      entry := update s.entry b none })
  | .releaseDiscardBlock =>
    (m, { s with inDiscardProcess := update s.inDiscardProcess b false })
  | .flushBlockToBackend id e d =>
    -- a block that was flushed in the meantime is not written again
    if (s.entries e).status = promotedUnflushed then
      let m := m.set d (memcpy (m.get d) 0 s.cacheData (id * bs) bs)
      (m, { s with backData := memcpy s.backData (b * bs) (m.get d) 0 bs })
    else (m, s)
  | .doNothing => (m, s)
  | .updateTierMeta statusData e => (m, setMeta b statusData (setStatus e statusData s))
  | .executeDataStoreRequest _ _ => (m, s)  -- in no chain of the cache policy

/-! ## A flush whose store calls may fail -/

/--
How the two store calls of a `FlushBlockToBackend` end. A call that does not fail may have moved
less than a block: `SimpleBlockStore` passes on what `pread` and `pwrite` return.
-/
structure FlushOutcome where
  /-- What `data_store->block_read` returns. -/
  readRet : Int
  /-- How many bytes it has read, if it does not fail. -/
  readMoved : Nat
  /-- What is in the buffer after a `block_read` that failed. -/
  readLeft : Bytes
  /-- What `back_store->write` returns. -/
  writeRet : Int
  /-- How many bytes it has written, if it does not fail. -/
  writeMoved : Nat
  /-- What is in the range of the block after a `write` that failed. -/
  writeLeft : Bytes

def sendFlushBlock (cfg : CacheConfig) (req : BlockRequest cfg.blockSize) (o : FlushOutcome)
    (id : Nat) (e : Fin n) (d : Buf) (x : Bufs × CacheState n) : Int × (Bufs × CacheState n) :=
  let m := x.1
  let s := x.2
  let b := req.block
  let bs := cfg.blockSize
  if (s.entries e).status = promotedUnflushed then
    let data :=
      if 0 ≤ o.readRet then memcpy (m.get d) 0 s.cacheData (id * bs) (min o.readMoved bs)
      else o.readLeft
    let backData :=
      if 0 ≤ o.writeRet then memcpy s.backData (b * bs) data 0 (min o.writeMoved bs)
      else memcpy s.backData (b * bs) o.writeLeft 0 bs
    -- `ret` is that of the write, whatever it was before
    (o.writeRet, (m.set d data, { s with backData := backData }))
  else (0, (m, s))

def sendOp (cfg : CacheConfig) (req : BlockRequest cfg.blockSize) (o : FlushOutcome)
    (op : BlockOp n) (x : Bufs × CacheState n) : Int × (Bufs × CacheState n) :=
  match op with
  | .flushBlockToBackend id e d => sendFlushBlock cfg req o id e d x
  | op => (0, send cfg req op x)

/-- The first `k` operations of a chain, or fewer: `BlockOp::complete` goes on to the next one if
the result is not negative. -/
def sendOps (cfg : CacheConfig) (req : BlockRequest cfg.blockSize) (o : FlushOutcome) :
    Nat → List (BlockOp n) → Bufs × CacheState n → Bufs × CacheState n
  | 0, _, x => x
  | _ + 1, [], x => x
  | k + 1, op :: ops, x =>
    let y := sendOp cfg req o op x
    if y.1 < 0 then y.2 else sendOps cfg req o k ops y.2

/-- The cache policy as the core sees it. -/
abbrev policy (cfg : CacheConfig) : Policy cfg.entriesCount cfg.blockSize where
  State := CacheState cfg.entriesCount
  map := map cfg
  send := send cfg
  inDiscardProcess := CacheState.inDiscardProcess
  entry := CacheState.entry

end HDCS.CachePolicy
