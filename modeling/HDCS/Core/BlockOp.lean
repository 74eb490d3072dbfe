import HDCS.Core.Request

/-!
# Block operations

`BlockOp.h` and `Policy.h`: the status words, the operations a policy strings
together into a chain, and the interface a policy offers the core.

An `Entry*` is a position in the policy's `entries` vector, so it is a `Fin n`
for the vector's length `n`; a `char*` is one of the two buffers a chain can
reach, the client's and its own scratch block. `BlockRequestComplete` is not an
operation here: it closes every chain, and what it does is the hand-over to the
next chain, which belongs to the core.
-/

namespace HDCS

open Lib

/-- `store::BLOCK_STATUS_TYPE`. -/
abbrev BlockStatus := UInt32

def unpromoted : BlockStatus := 0x00

def promotedUnflushed : BlockStatus := 0x40000000

def flushed : BlockStatus := 0xC0000000

def maxBlockId : UInt32 := 1073741824

/-- The two buffers an operation can be built over. -/
inductive Buf where
  /-- `block_request_ptr->data_ptr`. -/
  | dataPtr
  /-- The scratch block `map` allocates for a partial request. -/
  | blockBuffer
  deriving DecidableEq, Repr

/-- What the two buffers hold. -/
structure Bufs where
  dataPtr : Bytes
  blockBuffer : Bytes

def Bufs.get (m : Bufs) : Buf → Bytes
  | .dataPtr => m.dataPtr
  | .blockBuffer => m.blockBuffer

def Bufs.set (m : Bufs) : Buf → Bytes → Bufs
  | .dataPtr, x => { m with dataPtr := x }
  | .blockBuffer, x => { m with blockBuffer := x }

@[simp] theorem Bufs.get_set_self (m : Bufs) (d : Buf) (x : Bytes) : (m.set d x).get d = x := by
  cases d <;> rfl

@[simp] theorem Bufs.get_dataPtr (m : Bufs) : m.get .dataPtr = m.dataPtr := rfl

@[simp] theorem Bufs.get_blockBuffer (m : Bufs) : m.get .blockBuffer = m.blockBuffer := rfl

@[simp] theorem Bufs.set_dataPtr (m : Bufs) (x : Bytes) :
    m.set .dataPtr x = { m with dataPtr := x } := rfl

@[simp] theorem Bufs.set_blockBuffer (m : Bufs) (x : Bytes) :
    m.set .blockBuffer x = { m with blockBuffer := x } := rfl

/-- The completion `map` makes for a dirty timeout: its own identity and the block it flushes. -/
structure TimeoutComp where
  serial : Nat
  block : Nat
  deriving DecidableEq, Repr

structure Entry where
  entryId : UInt32
  status : BlockStatus
  timeoutComp : Option TimeoutComp

/-- The classes derived from `BlockOp` that a policy builds, with what each is constructed over. -/
inductive BlockOp (n : Nat) where
  | demoteBlockBuffer
  | readFromBuffer
  | writeToBuffer
  | promoteBlockFromBackend (data : Buf)
  | promoteFromBackend (data : Buf)
  | writeToBackend (data : Buf)
  | readBlockFromCache (entryId : Nat) (data : Buf)
  | writeBlockToCache (entryId : Nat) (data : Buf)
  | demoteBlockToCache (entryId : Nat)
  | discardBlockToBackend
  | updateTierMeta (statusData : BlockStatus) (status : Fin n)
  | updateCacheMeta (status : Option (Fin n)) (statusData : BlockStatus) (entryId : UInt32)
  | doNothing
  | updateLRU (status : Option (Fin n)) (entry : Fin n) (timeoutCompDef : Option TimeoutComp)
  | resetCacheEntry (status : Fin n)
  | releaseDiscardBlock
  | flushBlockToBackend (entryId : Nat) (status : Fin n) (data : Buf)
  | executeDataStoreRequest (entryId : Nat) (data : Buf)
  deriving DecidableEq, Repr

/-- The operations that hand the result of a store call to `complete`; the others pass it `0`. -/
def BlockOp.fallible {n : Nat} : BlockOp n → Bool
  | .promoteBlockFromBackend _ => true
  | .promoteFromBackend _ => true
  | .writeToBackend _ => true
  | .readBlockFromCache _ _ => true
  | .writeBlockToCache _ _ => true
  | .demoteBlockToCache _ => true
  | .discardBlockToBackend => true
  | .flushBlockToBackend _ _ _ => true
  | _ => false

/-- The `assert` in `UpdateCacheMeta::send`; the process dies where it fails. -/
def BlockOp.assertion {n : Nat} : BlockOp n → Bool
  | .updateCacheMeta _ _ entryId => entryId ≤ maxBlockId
  | _ => true

/--
`core::Policy`, with the part of the system its operations act on. `map` gives
the operations of a chain in the order they are sent, without the
`BlockRequestComplete` that closes it.
-/
structure Policy (n bs : Nat) where
  State : Type
  map : BlockRequest bs → State → List (BlockOp n) × State
  /-- What a successful `send` does to the chain's buffers and to the rest. -/
  send : BlockRequest bs → BlockOp n → Bufs × State → Bufs × State
  /-- `block->in_discard_process`. -/
  inDiscardProcess : State → Nat → Bool
  /-- `block->entry`. -/
  entry : State → Nat → Option (Fin n)

end HDCS
