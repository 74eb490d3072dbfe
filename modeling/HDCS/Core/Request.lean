import Mathlib.Algebra.Ring.Nat
import HDCS.Lib.Bytes

/-!
# Requests and how they are cut into block requests

`Request.h`, `BlockRequest.h` and the splitting loop of
`BlockGuard::create_block_requests`. A request names a byte range of the volume;
the core only ever works on the part of it that lies in one block, so a
`BlockRequest` carries the proof that it does.

Pointers into the client's buffer become the bytes found there: a block request
holds `data`, the memory from its `data_ptr` on. The completion a request
reports to, and the replication objects `create_block_requests` makes when there
are replicas, are not part of this model.
-/

namespace HDCS

open Lib

/-- `IO_TYPE_*`. -/
inductive IoType where
  | read
  | write
  | flush
  | discard
  | demoteCache
  | promote
  deriving DecidableEq, Repr

/-- `hdcs::Request`: a range of the volume and the client's buffer. -/
structure Request where
  ioType : IoType
  data : Bytes
  offset : Nat
  length : Nat

/-- `hdcs::core::BlockRequest`: the part of a request that falls into one block. -/
structure BlockRequest (bs : Nat) where
  /-- `req->io_type`. -/
  ioType : IoType
  /-- The memory `data_ptr` points to when the request is made. -/
  data : Bytes
  /-- Where in the block the range starts. -/
  offset : Nat
  size : Nat
  /-- `block->block_id`. -/
  block : Nat
  /-- Which request this is a part of: the identity of the shared `req`. -/
  req : Nat
  /-- The range lies in the block. -/
  inBlock : offset + size ≤ bs

def BlockRequest.Whole {bs : Nat} (r : BlockRequest bs) : Prop := r.size = bs

instance {bs : Nat} (r : BlockRequest bs) : Decidable r.Whole := inferInstanceAs (Decidable (_ = _))

theorem BlockRequest.Whole.offset {bs : Nat} {r : BlockRequest bs} (h : r.Whole) :
    r.offset = 0 := by
  have h1 : r.size = bs := h
  have h2 := r.inBlock
  omega

def lengthByBlock (bs offset left : Nat) : Nat :=
  if bs - offset % bs < left then bs - offset % bs else left

theorem lengthByBlock_inBlock {bs offset left : Nat} (hbs : 0 < bs) :
    offset % bs + lengthByBlock bs offset left ≤ bs := by
  have := Nat.mod_lt offset hbs
  unfold lengthByBlock
  split <;> omega

/--
The `while(left)` loop of `create_block_requests`. Every round takes at least
one byte, so `fuel = length` rounds are enough.
-/
def splitLoop (bs : Nat) (hbs : 0 < bs) (r : Request) (id : Nat) :
    Nat → Nat → Nat → Nat → List (BlockRequest bs)
  | 0, _, _, _ => []
  | fuel + 1, dataPtr, offset, left =>
    if left = 0 then []
    else
      { ioType := r.ioType
        data := fun i => r.data (dataPtr + i)
        offset := offset % bs
        size := lengthByBlock bs offset left
        block := offset / bs
        req := id
        inBlock := lengthByBlock_inBlock hbs } ::
      splitLoop bs hbs r id fuel (dataPtr + lengthByBlock bs offset left)
        (offset + lengthByBlock bs offset left) (left - lengthByBlock bs offset left)

/-- `BlockGuard::create_block_requests`, as the block requests it appends. -/
def createBlockRequests (bs : Nat) (hbs : 0 < bs) (id : Nat) (r : Request) :
    List (BlockRequest bs) :=
  splitLoop bs hbs r id r.length 0 r.offset r.length

theorem lengthByBlock_pos {bs offset left : Nat} (hbs : 0 < bs) (hl : 0 < left) :
    0 < lengthByBlock bs offset left := by
  have := Nat.mod_lt offset hbs
  unfold lengthByBlock
  split <;> omega

end HDCS
