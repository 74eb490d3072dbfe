import HDCS.Core.CacheSend
import HDCS.Core.LruLinklist

/-!
# The cache policy over its linked lists

`CachePolicy.cpp` once more, with the three lists as `LRU_Linklist.h` links them.
Everything else is as in `HDCS/Core/CachePolicy.lean`, so that part of the state
is in `rest`; the sequences in there are what the lists should hold, and nothing
here reads them.

A list operation that follows a bad pointer kills the process. A policy that is
dead maps nothing and stays dead.
-/

namespace HDCS

open Lib

/-- The cache policy, with its lists as they are in memory. -/
structure LinkedState (n : Nat) where
  rest : CacheState n
  freeLru : LruLinklist (Fin n)
  dirtyLru : LruLinklist Nat
  cleanLru : LruLinklist Nat

namespace LinkedPolicy

variable {n : Nat}

/-! ## Construction -/

def pairEntry (m : Nat → CachePolicy.EntryToBlock) (s : LinkedState n) (k : Fin n) :
    Option (LinkedState n) :=
  let s := { s with rest := CachePolicy.pairEntry m s.rest k }
  if (m k).valid then
    if (m k).status = promotedUnflushed then do
      return { s with dirtyLru := ← s.dirtyLru.touchKey (m k).block }
    else if (m k).status = flushed then do
      return { s with cleanLru := ← s.cleanLru.touchKey (m k).block }
    else some s
  else do
    return { s with freeLru := ← s.freeLru.touchKey k }

def unpaired (n : Nat) (cacheData : Bytes) (blockMeta : Nat → BlockStatus) (backData : Bytes) :
    LinkedState n where
  rest := CachePolicy.unpaired n cacheData blockMeta backData
  freeLru := .new
  dirtyLru := .new
  cleanLru := .new

/-- `CachePolicy::CachePolicy`. -/
def new (cfg : CacheConfig) (cacheData : Bytes) (blockMeta : Nat → BlockStatus)
    (backData : Bytes) : Option (LinkedState cfg.entriesCount) :=
  (List.finRange cfg.entriesCount).foldlM (pairEntry (CachePolicy.entryToBlockMap cfg blockMeta))
    (unpaired cfg.entriesCount cacheData blockMeta backData)

/-! ## `map` -/

/--
The branch of a miss: `get_head`, and `remove` of what it returned. Its result is
compared with null only after `get_head` has read it out of a node.
-/
def takeFree (b : Nat) (chain : Fin n → List (BlockOp n)) (s : LinkedState n) :
    Option (List (BlockOp n) × LinkedState n) := do
  let e ← s.freeLru.getHead
  let freeLru ← s.freeLru.remove e
  return (chain e, { s with rest := CachePolicy.attach b e s.rest, freeLru := freeLru })

def mapRest (cfg : CacheConfig) (req : BlockRequest cfg.blockSize) (s : LinkedState n) :
    List (BlockOp n) × LinkedState n :=
  let x := CachePolicy.map cfg req s.rest
  (x.1, { s with rest := x.2 })

def map (cfg : CacheConfig) (req : BlockRequest cfg.blockSize) (s : LinkedState n) :
    Option (List (BlockOp n) × LinkedState n) :=
  let b := req.block
  let comp := CachePolicy.newTimeoutComp cfg s.rest.timeoutComps b
  let rest := { s.rest with timeoutComps := s.rest.timeoutComps + comp.toList.length }
  let id := fun e => (rest.entries e).entryId
  match req.ioType, s.rest.entry b with
  | .read, none =>
    takeFree b (fun e => CachePolicy.readMiss cfg req e (id e) comp) { s with rest := rest }
  | .write, none =>
    if cfg.cacheMode = .readOnly then some (mapRest cfg req s)
    else takeFree b (fun e => CachePolicy.writeMiss cfg req e (id e) comp) { s with rest := rest }
  | _, _ => some (mapRest cfg req s)

/-! ## What the operations do -/

def sendUpdateLRU (cfg : CacheConfig) (b : Nat) (status : Option (Fin n)) (entry : Fin n)
    (timeoutCompDef : Option TimeoutComp) (s : LinkedState n) : Option (LinkedState n) :=
  let rest := CachePolicy.sendUpdateLRU cfg b status entry timeoutCompDef s.rest
  match status with
  | none => do
    let cleanLru ← s.cleanLru.remove b
    let dirtyLru ← s.dirtyLru.remove b
    let freeLru ← s.freeLru.touchKey entry
    return ⟨rest, freeLru, dirtyLru, cleanLru⟩
  | some e =>
    if (s.rest.entries e).status = promotedUnflushed then do
      let cleanLru ← s.cleanLru.remove b
      let dirtyLru ← s.dirtyLru.touchKey b
      return ⟨rest, s.freeLru, dirtyLru, cleanLru⟩
    else do
      let dirtyLru ← s.dirtyLru.remove b
      let cleanLru ← s.cleanLru.touchKey b
      return ⟨rest, s.freeLru, dirtyLru, cleanLru⟩

def send (cfg : CacheConfig) (req : BlockRequest cfg.blockSize) (op : BlockOp n)
    (m : Bufs) (s : LinkedState n) : Option (Bufs × LinkedState n) :=
  match op with
  | .updateLRU status entry timeoutCompDef => do
    return (m, ← sendUpdateLRU cfg req.block status entry timeoutCompDef s)
  | op =>
    let x := CachePolicy.send cfg req op (m, s.rest)
    some (x.1, { s with rest := x.2 })

/-- The policy as the core sees it; its state is `none` once the process is dead. -/
abbrev policy (cfg : CacheConfig) : Policy cfg.entriesCount cfg.blockSize where
  State := Option (LinkedState cfg.entriesCount)
  map := fun req s =>
    match s.bind (map cfg req) with
    | some x => (x.1, some x.2)
    | none => ([], none)
  send := fun req op x =>
    match x.2.bind (send cfg req op x.1) with
    | some y => (y.1, some y.2)
    | none => (x.1, none)
  inDiscardProcess := fun s b => s.any fun x => x.rest.inDiscardProcess b
  entry := fun s b => s.bind fun x => x.rest.entry b

end LinkedPolicy

end HDCS
