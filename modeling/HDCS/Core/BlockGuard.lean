import Mathlib.Algebra.Ring.Int.Defs
import HDCS.Core.AioCompletion

/-!
# The words of `create_block_requests`

`BlockGuard.h` once more, with the widths of the machine: offsets, lengths and
addresses have 64 bits, `block_size` and `pending_requests` have 32, and the count
for the `DataStoreRequest` goes from 64 bits into an `int` and from there through a
parameter of type `uint8_t`.

The loop looks up its block in `block_map` at a place it has computed. A look past
the end of the map is `none`, and so is a loop that has had a round for every byte
and has not ended.
-/

namespace HDCS

/-- `BlockGuard`: the size of the volume and the size of its blocks. -/
structure BlockGuard where
  totalSize : UInt64
  blockSize : UInt32
  /-- The constructor divides by it. -/
  blockSize_pos : 0 < blockSize.toNat

namespace BlockGuard

/-- `hdcs::Request`, as far as `create_block_requests` is concerned. -/
structure Request where
  /-- The address of the client's buffer. -/
  data : UInt64
  offset : UInt64
  length : UInt64
  pendingRequests : UInt32

def Request.addRequest (r : Request) : Request :=
  { r with pendingRequests := r.pendingRequests + 1 }

structure BlockRequest where
  dataPtr : UInt64
  offset : UInt64
  size : UInt64
  /-- `block->block_id`. -/
  block : UInt64

variable (g : BlockGuard)

def wide : UInt64 := g.blockSize.toUInt64

def blockCount : UInt64 := g.totalSize / g.wide

def blockMap (blockId : UInt64) : Option UInt64 :=
  if blockId < g.blockCount then some blockId else none

def lengthByBlock (offset left : UInt64) : UInt64 :=
  if g.wide - offset % g.wide < left then g.wide - offset % g.wide else left

structure Loop where
  dataPtr : UInt64
  offset : UInt64
  left : UInt64
  req : Request
  blockRequestList : List BlockRequest

def round (l : Loop) : Option Loop := do
  let block ← g.blockMap (l.offset / g.wide)
  let len := g.lengthByBlock l.offset l.left
  return {
    dataPtr := l.dataPtr + len
    offset := l.offset + len
    left := l.left - len
    -- the constructor of a block request reports to the request
    req := l.req.addRequest
    blockRequestList := l.blockRequestList ++ [⟨l.dataPtr, l.offset % g.wide, len, block⟩] }

def loop : Nat → Loop → Option Loop
  | 0, _ => none
  | fuel + 1, l => if l.left = 0 then some l else (g.round l).bind (loop fuel)

/-- `BlockGuard::create_block_requests`: the request and the list when it returns. -/
def createBlockRequests (req : Request) (blockRequestList : List BlockRequest) :
    Option (Request × List BlockRequest) :=
  (g.loop (req.length.toNat + 1) ⟨req.data, req.offset, req.length, req, blockRequestList⟩).map
    fun l => (l.req, l.blockRequestList)

def toInt (w : UInt64) : Int := Int.bmod w.toNat (2 ^ 32)

def sharedCount (req : Request) : Int :=
  let tmpLength := req.length + req.offset % g.wide
  toInt ((if tmpLength % g.wide = 0 then 0 else 1) + tmpLength / g.wide)

/-- What is left of `shared_count` behind a parameter of type `uint8_t`: the completion's count. -/
def armedCount (req : Request) : Int := g.sharedCount req % 2 ^ 8

end BlockGuard

end HDCS
