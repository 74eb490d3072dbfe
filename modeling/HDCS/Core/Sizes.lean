import HDCS.Core.CachePolicy

/-!
# How many blocks there are

`BlockGuard`, the two policies and `SimpleBlockStore` each work out from `total_size`,
`cache_size` and `block_size` how many blocks they deal with. The counts are 64-bit
numbers here as they are there.
-/

namespace HDCS

/-- What the components of a core are constructed with. -/
structure Sizes where
  totalSize : UInt64
  cacheSize : UInt64
  blockSize : UInt32
  blockSize_pos : 0 < blockSize.toNat

namespace Sizes

variable (z : Sizes)

/-- `block_size`, where it is 64 bits wide. -/
def blockSize64 : UInt64 := z.blockSize.toUInt64

def blockCount : UInt64 := z.totalSize / z.blockSize64

/-- `CachePolicy::blocks_count`. -/
def cacheBlocks : UInt64 := z.totalSize / z.blockSize64 + 1

def cacheBlocksCount : UInt64 := z.cacheSize / z.blockSize64 + 1

/-- `TierPolicy::blocks_count`. -/
def tierBlocks : UInt64 := z.totalSize / z.blockSize64

/-- `meta_block_count` and `data_block_count`, of the size they are made for. -/
def storeBlocks (size : UInt64) : UInt64 :=
  if size % z.blockSize64 ≠ 0 then size / z.blockSize64 + 1 else size / z.blockSize64

def metaBlockCount : UInt64 := z.storeBlocks z.totalSize

/-- `data_block_count` of a cache's store. -/
def dataBlockCount : UInt64 := z.storeBlocks z.cacheSize

/-- How many entries the loop over `int32_t i = cache_blocks_count - 1` makes. -/
def entriesCount : Nat := ((BitVec.ofNat 32 (z.cacheBlocksCount - 1).toNat).toInt + 1).toNat

/-- The ids the constructor of `CachePolicy` calls `get_block_meta` with. -/
def cacheMetaIds : List Nat := List.range z.cacheBlocks.toNat

/-- Those it looks up in `block_map`: the blocks whose word says that they are cached. -/
def cacheMapIds (blockMeta : Nat → BlockStatus) : List Nat :=
  z.cacheMetaIds.filter fun b => blockMeta b >>> 30 ≠ 0

/-- The ids the constructor of `TierPolicy` uses, for either. -/
def tierIds : List Nat := List.range z.tierBlocks.toNat

/-- The ids of the entries that `CachePolicy` has to give. -/
def entryId (k : Fin z.entriesCount) : Nat :=
  (CachePolicy.newEntries z.entriesCount k).entryId.toNat

end Sizes

end HDCS
