import HDCS.Core.BlockOp
import HDCS.Lib.PosixFile

/-!
# The engines behind `DataStore`

`create_engine` knows two engines, `SimpleBlockStore` over a file and `KVStore` over a
key-value database, and gives the first for every name but `kv`. Both have an array of
states, one for each block, that is mapped into memory. A function that ends without a `return`
returns nothing here.

`BlockStore` is what they are for: the bytes of a volume and the states of its blocks.

File operations and the database do not fail, and the constructors return.
-/

namespace HDCS

open Lib Function

/-- What an engine is made with. -/
structure DataStore.Config where
  totalSize : Nat
  storeSize : Nat
  blockSize : Nat
  blockSize_pos : 0 < blockSize

def DataStore.Config.blockCount (cfg : DataStore.Config) (size : Nat) : Nat :=
  if size % cfg.blockSize ≠ 0 then size / cfg.blockSize + 1 else size / cfg.blockSize

structure SimpleBlockStore where
  /-- The file behind `data_store_fd`. -/
  dataStore : PosixFile
  metaStoreMmap : Nat → BlockStatus

structure KVStore where
  testhlkvds : String → Option Bytes
  metaStoreMmap : Nat → BlockStatus

def DataStore.toInt (n : Nat) : Int := Int.bmod n (2 ^ 32)

namespace SimpleBlockStore

variable (blockSize : Nat) (s : SimpleBlockStore)

def blockWrite (blockId : Nat) (data : Bytes) : Option Int × SimpleBlockStore :=
  let r := s.dataStore.pwrite data blockSize (blockId * blockSize)
  (some (DataStore.toInt r.2), { s with dataStore := r.1 })

/-- The buffer afterwards, and what is returned. -/
def blockRead (blockId : Nat) (data : Bytes) : Bytes × Option Int :=
  let r := s.dataStore.pread data blockSize (blockId * blockSize)
  (r.1, if DataStore.toInt r.2 < 0 then some (DataStore.toInt r.2) else none)

def blockDiscard (blockId : Nat) : Option Int × SimpleBlockStore :=
  (none, { s with dataStore := s.dataStore.punchHole (blockId * blockSize) blockSize })

def blockMetaUpdate (blockId : Nat) (status : BlockStatus) : Option Int × SimpleBlockStore :=
  (some 0, { s with metaStoreMmap := update s.metaStoreMmap blockId status })

def getBlockMeta (blockId : Nat) : BlockStatus := s.metaStoreMmap blockId

def write (data : Bytes) (offset size : Nat) : Option Int × SimpleBlockStore :=
  let r := s.dataStore.pwrite data size offset
  (some (DataStore.toInt r.2), { s with dataStore := r.1 })

def read (data : Bytes) (offset size : Nat) : Bytes × Option Int :=
  let r := s.dataStore.pread data size offset
  (r.1, if DataStore.toInt r.2 < 0 then some (DataStore.toInt r.2) else none)

end SimpleBlockStore

namespace KVStore

variable (blockSize : Nat) (s : KVStore)

def blockWrite (blockId : Nat) (data : Bytes) : Option Int × KVStore :=
  (some 0, { s with testhlkvds := update s.testhlkvds (toString blockId) (some data) })

def strlen (data : Bytes) : Nat → Nat
  | 0 => 0
  | n + 1 => if data 0 = 0 then 0 else strlen (fun i => data (i + 1)) n + 1

def blockRead (blockId : Nat) (data : Bytes) : Bytes × Option Int :=
  let length :=
    if (s.testhlkvds (toString blockId)).isSome then blockSize else strlen data blockSize
  (data, some (DataStore.toInt length))

def blockDiscard (_blockId : Nat) : Option Int × KVStore := (some 0, s)

def blockMetaUpdate (blockId : Nat) (status : BlockStatus) : Option Int × KVStore :=
  (some 0, { s with metaStoreMmap := update s.metaStoreMmap blockId status })

def getBlockMeta (blockId : Nat) : BlockStatus := s.metaStoreMmap blockId

def write (_data : Bytes) (_offset _size : Nat) : Option Int × KVStore := (none, s)

def read (_s : KVStore) (data : Bytes) (_offset _size : Nat) : Bytes × Option Int := (data, none)

end KVStore

inductive DataStore where
  | simple (s : SimpleBlockStore)
  | kv (s : KVStore)

namespace DataStore

/-- What is there when an engine is made. `KVStore` maps the descriptor `0`. -/
structure Disk where
  dataFile : PosixFile
  metaFile : Nat → BlockStatus
  descriptor0 : Nat → BlockStatus

def openAndInit (f : PosixFile) (size : Nat) : PosixFile :=
  if f.size < size then f.ftruncate size else f

def createEngine (cfg : Config) (engineType : String) (disk : Disk) : DataStore :=
  if engineType = "kv" then .kv ⟨fun _ => none, disk.descriptor0⟩
  else .simple ⟨openAndInit disk.dataFile cfg.storeSize, disk.metaFile⟩

/-- The calls. Where a buffer is to be filled it is given as it is before. -/
inductive StoreCall where
  | blockWrite (blockId : Nat) (data : Bytes)
  | blockRead (blockId : Nat) (data : Bytes)
  | blockDiscard (blockId : Nat)
  | write (data : Bytes) (offset size : Nat)
  | read (data : Bytes) (offset size : Nat)
  | blockMetaUpdate (blockId : Nat) (status : BlockStatus)
  | getBlockMeta (blockId : Nat)

/-- What a caller sees of a call, but for a return code. -/
inductive Seen where
  | nothing
  | bytes (data : Bytes)
  | status (status : BlockStatus)

/-- The blocks and bytes of a call are there. -/
def InRange (cfg : Config) : StoreCall → Prop
  | .blockWrite blockId _ | .blockRead blockId _ | .blockDiscard blockId =>
    blockId < cfg.blockCount cfg.storeSize
  | .write _ offset size | .read _ offset size => offset + size ≤ cfg.storeSize
  | .blockMetaUpdate blockId _ | .getBlockMeta blockId => blockId < cfg.blockCount cfg.totalSize

instance (cfg : Config) : (c : StoreCall) → Decidable (InRange cfg c)
  | .blockWrite blockId _ | .blockRead blockId _ | .blockDiscard blockId =>
    inferInstanceAs (Decidable (blockId < cfg.blockCount cfg.storeSize))
  | .write _ offset size | .read _ offset size =>
    inferInstanceAs (Decidable (offset + size ≤ cfg.storeSize))
  | .blockMetaUpdate blockId _ | .getBlockMeta blockId =>
    inferInstanceAs (Decidable (blockId < cfg.blockCount cfg.totalSize))

/-- A byte of a buffer that was filled. -/
def Seen.byte (i : Nat) : Seen → Option UInt8
  | .bytes data => some (data i)
  | _ => none

def step (blockSize : Nat) : DataStore → StoreCall → Seen × DataStore
  | .simple s, .blockWrite blockId data =>
    (.nothing, .simple (s.blockWrite blockSize blockId data).2)
  | .simple s, .blockRead blockId data => (.bytes (s.blockRead blockSize blockId data).1, .simple s)
  | .simple s, .blockDiscard blockId => (.nothing, .simple (s.blockDiscard blockSize blockId).2)
  | .simple s, .write data offset size => (.nothing, .simple (s.write data offset size).2)
  | .simple s, .read data offset size => (.bytes (s.read data offset size).1, .simple s)
  | .simple s, .blockMetaUpdate blockId status =>
    (.nothing, .simple (s.blockMetaUpdate blockId status).2)
  | .simple s, .getBlockMeta blockId => (.status (s.getBlockMeta blockId), .simple s)
  | .kv s, .blockWrite blockId data => (.nothing, .kv (s.blockWrite blockId data).2)
  | .kv s, .blockRead blockId data => (.bytes (s.blockRead blockSize blockId data).1, .kv s)
  | .kv s, .blockDiscard blockId => (.nothing, .kv (s.blockDiscard blockId).2)
  | .kv s, .write data offset size => (.nothing, .kv (s.write data offset size).2)
  | .kv s, .read data offset size => (.bytes (s.read data offset size).1, .kv s)
  | .kv s, .blockMetaUpdate blockId status => (.nothing, .kv (s.blockMetaUpdate blockId status).2)
  | .kv s, .getBlockMeta blockId => (.status (s.getBlockMeta blockId), .kv s)

/-- What the callers see of one call after another. -/
def run (blockSize : Nat) : DataStore → List StoreCall → List Seen
  | _, [] => []
  | e, c :: calls => (e.step blockSize c).1 :: run blockSize (e.step blockSize c).2 calls

end DataStore

/-- The store that every engine should be. -/
structure BlockStore where
  data : Bytes
  status : Nat → BlockStatus

namespace BlockStore

open DataStore

def step (blockSize : Nat) (a : BlockStore) : StoreCall → Seen × BlockStore
  | .blockWrite blockId data =>
    (.nothing, { a with data := memcpy a.data (blockId * blockSize) data 0 blockSize })
  | .blockRead blockId data =>
    (.bytes (memcpy data 0 a.data (blockId * blockSize) blockSize), a)
  | .blockDiscard blockId =>
    (.nothing, { a with data := memcpy a.data (blockId * blockSize) (fun _ => 0) 0 blockSize })
  | .write data offset size => (.nothing, { a with data := memcpy a.data offset data 0 size })
  | .read data offset size => (.bytes (memcpy data 0 a.data offset size), a)
  | .blockMetaUpdate blockId status =>
    (.nothing, { a with status := update a.status blockId status })
  | .getBlockMeta blockId => (.status (a.status blockId), a)

def run (blockSize : Nat) : BlockStore → List StoreCall → List Seen
  | _, [] => []
  | a, c :: calls => (a.step blockSize c).1 :: run blockSize (a.step blockSize c).2 calls

end BlockStore

end HDCS
