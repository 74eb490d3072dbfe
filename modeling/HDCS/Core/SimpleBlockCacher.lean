import Mathlib.Algebra.Ring.Nat
import HDCS.Core.LruList
import HDCS.Lib.Bytes
import HDCS.Lib.Machine
import HDCS.Lib.OrderedMap

/-!
# `SimpleBlockCacher`

The cache that the librbd patch puts in front of an image. A request is cut at the
boundaries of objects, and a piece of it belongs to the entry of `m_meta_tbl` whose
key is *where the piece starts*; an entry may own one slot of the cache device, which
has room for a whole object. Where that is decided, in `write` and in `read`, and what
flushing and evicting do with an entry is modelled line by line. The pieces run one
after another, so no piece ever waits in an entry's queue.

The devices do not fail: every transfer moves all bytes it was asked to move and
returns their number, squeezed into an `int`. `std::time` is read once for every call.
-/

namespace HDCS

open Lib LruList

structure SimpleBlockCacher.Block where
  onDiskIndex : Int := -1
  onVolumeOffset : Nat := 0
  inflightFlush : Bool := false
  ifClean : Bool := true
  tsWrite : Nat := 0
  tsFlush : Nat := 0

structure SimpleBlockCacher where
  /-- `m_meta_tbl`. `m_meta_tbl_lookup` puts a new block where it finds none. -/
  metaTbl : Nat → SimpleBlockCacher.Block
  /-- The nodes from `p_free_node_head` to `p_free_node_tail`. -/
  freeNodes : List Int
  lruDirty : List Nat
  lruClean : List Nat
  /-- The file behind `m_device_fd`. -/
  device : Bytes
  /-- The image behind `backend_store`. -/
  backend : Bytes

namespace SimpleBlockCacher

def Block.reset (now : Nat) : Block :=
  { onDiskIndex := -1, onVolumeOffset := 0, inflightFlush := false, ifClean := true, tsWrite := 0,
    tsFlush := now }

/-- What `init` makes of `m_free_list_length`. With no room for an object there is still a node,
and nobody has written its index. -/
def initFree (freeListLength : Nat) (garbage : Int) : List Int :=
  if freeListLength = 0 then [garbage] else (List.range freeListLength).map Int.ofNat

/-- A new cacher over a device and an image that may hold anything. -/
def new (freeListLength : Nat) (garbage : Int) (device backend : Bytes) : SimpleBlockCacher :=
  { metaTbl := fun _ => {}, freeNodes := initFree freeListLength garbage, lruDirty := [],
    lruClean := [], device := device, backend := backend }

def freeLookup (s : SimpleBlockCacher) : Int × SimpleBlockCacher :=
  match s.freeNodes with
  | [] => (-1, s)
  | index :: rest => (index, { s with freeNodes := rest })

def returnToFree (blockId : Int) (s : SimpleBlockCacher) : SimpleBlockCacher :=
  { s with freeNodes := s.freeNodes ++ [blockId] }

def setBlock (c : Nat) (entry : Block) (s : SimpleBlockCacher) : SimpleBlockCacher :=
  { s with metaTbl := Function.update s.metaTbl c entry }

/-- `do_evict`. The caller of `evict_all_clean` may be a `write` that holds the lock of its own
entry, and `try_lock` fails on that one. -/
def doEvict (locked : Option Nat) (now : Nat) (s : SimpleBlockCacher) (c : Nat) :
    SimpleBlockCacher :=
  let entry := s.metaTbl c
  if locked = some c then s
  else if entry.onDiskIndex = -1 then s
  else if entry.ifClean = false then s
  else if entry.inflightFlush = true then s
  else
    let s := (s.returnToFree entry.onDiskIndex).setBlock c (.reset now)
    { s with lruClean := remove c s.lruClean }

def evictAllClean (locked : Option Nat) (now : Nat) (s : SimpleBlockCacher) : SimpleBlockCacher :=
  s.lruClean.reverse.foldl (doEvict locked now) s

def toInt (n : Nat) : Int := Int.bmod n (2 ^ 32)

variable (objectSize : Nat)

def doWrite (blockId : Int) (buf : Bytes) (dataOff offByEntry length : Nat)
    (s : SimpleBlockCacher) : SimpleBlockCacher :=
  { s with device :=
      memcpy s.device (blockId.toNat * objectSize + offByEntry) buf dataOff length }

/-- The first half of `write`: the slot the bytes will go to, and whether it is a new one; none
if they have to go around the cache. -/
def blockFor (cacheEntryId length now : Nat) (s : SimpleBlockCacher) :
    SimpleBlockCacher × Option (Int × Bool) :=
  let index := (s.metaTbl cacheEntryId).onDiskIndex
  if index ≠ -1 ∧ length < objectSize then (s, some (index, false))
  else if 0 ≤ s.freeLookup.1 then (s.freeLookup.2, some (s.freeLookup.1, true))
  else
    let s := s.freeLookup.2.evictAllClean (some cacheEntryId) now
    if 0 ≤ s.freeLookup.1 then (s.freeLookup.2, some (s.freeLookup.1, true))
    else
      let s := s.freeLookup.2
      let index := (s.metaTbl cacheEntryId).onDiskIndex
      if index = -1 then (s, none) else (s, some (index, false))

def updateMeta (cacheEntryId : Nat) (blockId : Int) (appendWrite : Bool) (reqTs : Nat)
    (s : SimpleBlockCacher) : SimpleBlockCacher :=
  let entry := s.metaTbl cacheEntryId
  if reqTs < entry.tsWrite then
    -- a late request
    if appendWrite then s.returnToFree blockId else s
  else
    let s := if appendWrite then s.returnToFree entry.onDiskIndex else s
    let s := s.setBlock cacheEntryId
      { entry with
        tsWrite := reqTs, onDiskIndex := blockId, onVolumeOffset := cacheEntryId, ifClean := false }
    { s with
      lruDirty := touchKey cacheEntryId s.lruDirty
      lruClean := remove cacheEntryId s.lruClean }

/-- A piece of a request: `Op`. -/
structure Op where
  offset : Nat
  length : Nat
  dataOff : Nat

/-- `write`, or `none` where its assertion fails. -/
def write (buf : Bytes) (reqTs now : Nat) (s : SimpleBlockCacher) (op : Op) :
    Option SimpleBlockCacher :=
  let offByEntry := op.offset % objectSize
  if offByEntry + op.length ≤ objectSize then
    match s.blockFor objectSize op.offset op.length now with
    | (s, none) => some { s with backend := memcpy s.backend op.offset buf op.dataOff op.length }
    | (s, some (blockId, appendWrite)) =>
      let s := s.doWrite objectSize blockId buf op.dataOff offByEntry op.length
      if 0 ≤ toInt op.length then some (s.updateMeta op.offset blockId appendWrite reqTs)
      else if appendWrite then some (s.returnToFree blockId)
      else some s
  else none

def touch (cacheEntryId : Nat) (s : SimpleBlockCacher) : SimpleBlockCacher :=
  if (s.metaTbl cacheEntryId).ifClean then
    { s with lruClean := touchKey cacheEntryId s.lruClean }
  else { s with lruDirty := touchKey cacheEntryId s.lruDirty }

/-- What `read` does with the slot `free_lookup` has found after a miss. The bytes are written to
it only if the backend has returned zero. -/
def promote (blockId : Int) (op : Op) (s : SimpleBlockCacher) : SimpleBlockCacher :=
  if 0 ≤ blockId then
    if 0 ≤ toInt op.length then
      let s := if toInt op.length = 0 then
          s.doWrite objectSize blockId s.backend op.offset (op.offset % objectSize) op.length
        else s
      (s.setBlock op.offset
        { s.metaTbl op.offset with onDiskIndex := blockId, onVolumeOffset := op.offset }).touch
          op.offset
    else s.returnToFree blockId
  else s

/-- `read` into the buffer of the request, or `none` where its assertion fails. -/
def read (s : SimpleBlockCacher × Bytes) (op : Op) : Option (SimpleBlockCacher × Bytes) :=
  let offByEntry := op.offset % objectSize
  let entry := s.1.metaTbl op.offset
  if offByEntry + op.length ≤ objectSize then
    if entry.onDiskIndex ≠ -1 then
      let data := memcpy s.2 op.dataOff s.1.device
        (entry.onDiskIndex.toNat * objectSize + offByEntry) op.length
      if 0 ≤ toInt op.length ∧ 0 ≤ entry.onDiskIndex then some (s.1.touch op.offset, data)
      else some (s.1, data)
    else
      some (s.1.freeLookup.2.promote objectSize s.1.freeLookup.1 op,
        memcpy s.2 op.dataOff s.1.backend op.offset op.length)
  else none

def lengthByEntry (offset left : Nat) : Nat :=
  if objectSize - offset % objectSize < left then objectSize - offset % objectSize else left

def pieces : Nat → Nat → Nat → Nat → List Op
  | 0, _, _, _ => []
  | fuel + 1, offset, left, dataOff =>
    if left = 0 then []
    else
      let length := lengthByEntry objectSize offset left
      ⟨offset, length, dataOff⟩ :: pieces fuel (offset + length) (left - length) (dataOff + length)

/-- `map_request_to_cache_entry` for every piece of a request. -/
def mapRequest (offset length : Nat) : List Op := pieces objectSize length offset length 0

def processWrite (offset length : Nat) (writeData : Bytes) (reqTs now : Nat)
    (s : SimpleBlockCacher) : Option SimpleBlockCacher :=
  (mapRequest objectSize offset length).foldlM (write objectSize writeData reqTs now) s

/-- `process`, for a read request: the cacher and the buffer afterwards. -/
def processRead (offset length : Nat) (readData : Bytes) (s : SimpleBlockCacher) :
    Option (SimpleBlockCacher × Bytes) :=
  (mapRequest objectSize offset length).foldlM (read objectSize) (s, readData)

structure AioBackendWrite where
  cacheEntry : Nat
  offset : Nat
  data : Bytes
  tsWrite : Nat
  tsFlush : Nat

def aioBackendWrite (now : Nat) (s : SimpleBlockCacher) (c : Nat) : AioBackendWrite :=
  { cacheEntry := c
    offset := (s.metaTbl c).onVolumeOffset
    data := fun i => s.device ((s.metaTbl c).onDiskIndex.toNat * objectSize + i)
    tsWrite := now
    tsFlush := now }

def doFlush (now : Nat) (s : SimpleBlockCacher × List AioBackendWrite) (c : Nat) :
    SimpleBlockCacher × List AioBackendWrite :=
  let entry := s.1.metaTbl c
  if entry.onDiskIndex = -1 then s
  else if entry.ifClean = true then s
  else if entry.inflightFlush = true then s
  else
    (s.1.setBlock c { entry with tsFlush := now, inflightFlush := true },
      s.2 ++ [s.1.aioBackendWrite objectSize now c])

def tmpSort (s : SimpleBlockCacher) (cEntryList : List Nat) : Std.TreeMap Nat Nat :=
  cEntryList.foldl (fun m c =>
    if 0 ≤ (s.metaTbl c).onDiskIndex then m.insertIfNew (s.metaTbl c).onVolumeOffset c else m) ∅

def flush (now : Nat) (s : SimpleBlockCacher) (cEntryList : List Nat) :
    SimpleBlockCacher × List AioBackendWrite :=
  ((s.tmpSort cEntryList).toList.map Prod.snd).foldl (doFlush objectSize now) (s, [])

def finish (s : SimpleBlockCacher) (aio : AioBackendWrite) : SimpleBlockCacher :=
  let c := aio.cacheEntry
  let entry := s.metaTbl c
  let s := { s with backend := memcpy s.backend aio.offset aio.data 0 objectSize }
  if aio.tsWrite < entry.tsWrite then
    if entry.tsFlush ≤ aio.tsFlush then s.setBlock c { entry with inflightFlush := false } else s
  else
    let s := s.setBlock c { entry with ifClean := true, inflightFlush := false }
    { s with lruDirty := remove c s.lruDirty, lruClean := touchKey c s.lruClean }

/-- A word of 64 bits that is converted to `float`: 24 bits, ties to even. -/
def toFloat (n : Nat) : Nat :=
  if n < 2 ^ 24 then n
  else
    let ulp := 2 ^ (n.log2 - 23)
    let low := n / ulp * ulp
    if 2 * (n - low) < ulp ∨ 2 * (n - low) = ulp ∧ n / ulp % 2 = 0 then low else low + ulp

/-- `flush_all`: `flush_by_ratio(0)`. No ratio is below zero, so it goes on, and the number of
entries it flushes is computed as a `float`. The writes reach the backend in any order, and it
returns when all of them have. -/
def flushAll (order : List Nat) (now : Nat) (s : SimpleBlockCacher) : Option SimpleBlockCacher :=
  let flushed := s.flush objectSize now (s.lruDirty.reverse.take (toFloat s.lruDirty.length))
  if order.isPerm (List.range flushed.2.length) then
    some ((order.filterMap (flushed.2[·]?)).foldl (finish objectSize) flushed.1)
  else none

/-- A cacher at work, next to the volume its clients think they have. -/
structure Run where
  cacher : SimpleBlockCacher
  volume : Bytes
  /-- The timestamp of the last write request. -/
  ts : Nat
  /-- When the last call was made. -/
  clock : Nat

/-- A new cacher: the volume is what the image holds. -/
def start (freeListLength : Nat) (garbage : Int) (device backend : Bytes) : Run :=
  ⟨new freeListLength garbage device backend, backend, 0, 0⟩

/-- What its users do. -/
inductive Call where
  | write (offset length : Nat) (data : Bytes) (ts now : Nat)
  | read (offset length : Nat) (buf : Bytes)
  | flushAll (order : List Nat) (now : Nat)
  | evictAllClean (now : Nat)

def step (r : Run) : Call → Option Run
  | .write offset length data ts now =>
    (r.cacher.processWrite objectSize offset length data ts now).map
      (⟨·, memcpy r.volume offset data 0 length, ts, now⟩)
  | .read offset length buf =>
    (r.cacher.processRead objectSize offset length buf).map fun p => { r with cacher := p.1 }
  | .flushAll order now =>
    (r.cacher.flushAll objectSize order now).map ({ r with cacher := ·, clock := now })
  | .evictAllClean now =>
    some { r with cacher := r.cacher.evictAllClean none now, clock := now }

/-- Time does not go back, neither between calls nor between requests. -/
def Timed (r : Run) : Call → Prop
  | .write _ _ _ ts now => r.ts ≤ ts ∧ ts ≤ now ∧ r.clock ≤ now
  | .read _ _ _ => True
  | .flushAll _ now => r.clock ≤ now
  | .evictAllClean now => r.clock ≤ now

instance (r : Run) : ∀ c, Decidable (Timed r c)
  | .write _ _ _ ts now => inferInstanceAs (Decidable (r.ts ≤ ts ∧ ts ≤ now ∧ r.clock ≤ now))
  | .read _ _ _ => inferInstanceAs (Decidable True)
  | .flushAll _ now => inferInstanceAs (Decidable (r.clock ≤ now))
  | .evictAllClean now => inferInstanceAs (Decidable (r.clock ≤ now))

end SimpleBlockCacher

end HDCS
