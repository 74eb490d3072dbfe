import HDCS.Lib.Machine
import HDCS.Lib.SinglyLinked

/-!
# The slots of `SimpleBlockCacher` while its operations run

`write`, `read` and `do_evict` of `SimpleBlockCacher.cpp` and the completion of a flush: what is
done under the lock of a `BLOCK` is one step, and without it every look at a `BLOCK` and
every change of it is one. Between two steps of an operation any other operation may come. The
`WriteLock` of `do_evict` ends with the block it is declared in, so its tests, the call of
`return_to_free` and the reset are made without a lock; and `read` locks the `BLOCK` after it
has looked whether there is a slot. An operation may be called from any thread (`libsbc` does
so), so there may be several on one `BLOCK`. The transfers are not modelled, only that they
may fail.

The free slots are in a list of nodes, with a pointer to the first and one to the last.

`BLOCK`s are known by the order they were made in, since nothing here depends on the keys of
`m_meta_tbl`; `on_volume_offset` is left out.
-/

namespace HDCS

open Lib SinglyLinked

/-- What of a `BLOCK` its slot depends on. -/
structure CacherSlots.Block where
  onDiskIndex : Int := -1
  inflightFlush : Bool := false
  ifClean : Bool := true
  tsWrite : Nat := 0
  tsFlush : Nat := 0

structure CacherSlots.FreeList where
  head : Option Nat
  tail : Option Nat
  nodes : Heap Int

inductive CacherSlots.RunningOp where
  /-- `write` has found no free slot and is in `evict_all_clean`, with the lock of its `BLOCK`. -/
  | evicting (c ts : Nat)
  /-- `write` is before or in `do_write`. -/
  | writing (c ts : Nat) (blockId : Int) (appendWrite : Bool)
  /-- `read` has seen a slot, and has not locked the `BLOCK`. -/
  | hit (c : Nat)
  /-- `read` is in `do_read`, with the lock. -/
  | reading (c : Nat) (blockId : Int)
  /-- `read` is after `do_read`. -/
  | haveRead (c : Nat) (blockId : Int)
  /-- `read` has seen no slot, and reads from the backend. -/
  | miss (c : Nat)
  /-- `read` is after `free_lookup`. -/
  | missed (c : Nat) (blockId : Int)
  /-- `read` has seen no slot at its end, and is before the lock to set the one it used; `taken` if
  that one is from the free list. -/
  | settling (c : Nat) (blockId : Int) (taken : Bool)
  /-- `do_evict` is before its test `k`. Its lock is released again. -/
  | tests (c k : Nat)
  /-- It is behind its tests. -/
  | evicts (c : Nat)
  /-- It calls `return_to_free` with the index it has read. -/
  | returns (c : Nat) (blockId : Int)
  /-- It is before `reset`. -/
  | resets (c : Nat)
  | done
  deriving DecidableEq

structure CacherSlots.Flush where
  c : Nat
  tsWrite : Nat
  tsFlush : Nat

structure CacherSlots where
  blocks : List CacherSlots.Block
  freeList : CacherSlots.FreeList
  running : List CacherSlots.RunningOp
  flushes : List CacherSlots.Flush

namespace CacherSlots

/-- `init`, for at least one slot. The addresses are those of the nodes in the order they are
made. -/
def FreeList.init (freeListLength : Nat) : FreeList where
  head := some 0
  tail := some (freeListLength - 1)
  nodes := fun i =>
    if i < freeListLength then
      some ⟨i, if i < freeListLength - 1 then some (i + 1) else none⟩
    else none

def FreeList.freeLookup (q : FreeList) : Int × FreeList :=
  match q.head.bind q.nodes with
  | none => (-1, q)
  | some thisNode =>
    (thisNode.value,
      { head := thisNode.next
        tail := if q.tail = q.head then none else q.tail
        -- `delete this_node`
        nodes := fun p => if q.head = some p then none else q.nodes p })

def FreeList.linkTail (newNode : Nat) (tail : Option Nat) (nodes : Heap Int) : Heap Int :=
  match tail with
  | none => nodes
  | some t => Function.update nodes t ((nodes t).map fun node => { node with next := some newNode })

def FreeList.returnToFree (newNode : Nat) (blockId : Int) (q : FreeList) : FreeList where
  head := if q.head = none then some newNode else q.head
  tail := some newNode
  nodes := linkTail newNode q.tail (Function.update q.nodes newNode (some ⟨blockId, none⟩))

def start (freeListLength : Nat) : CacherSlots := ⟨[], .init freeListLength, [], []⟩

def block (c : Nat) (s : CacherSlots) : Block := s.blocks.getD c {}

def setBlock (c : Nat) (entry : Block) (s : CacherSlots) : CacherSlots :=
  { s with blocks := s.blocks.set c entry }

def returnToFree (newNode : Nat) (blockId : Int) (s : CacherSlots) : CacherSlots :=
  { s with freeList := s.freeList.returnToFree newNode blockId }

/-- The slot `free_lookup` returns. -/
def freeSlot (s : CacherSlots) : Int := s.freeList.freeLookup.1

def freeLookup (s : CacherSlots) : CacherSlots := { s with freeList := s.freeList.freeLookup.2 }

def begin (r : RunningOp) (s : CacherSlots) : CacherSlots := { s with running := s.running ++ [r] }

def setRunning (i : Nat) (r : RunningOp) (s : CacherSlots) : CacherSlots :=
  { s with running := s.running.set i r }

def RunningOp.locks (c : Nat) : RunningOp → Bool
  | .evicting c' _ | .reading c' _ => c' == c
  | _ => false

def RunningOp.writeLocks (c : Nat) : RunningOp → Bool
  | .evicting c' _ => c' == c
  | _ => false

def Unlocked (s : CacherSlots) (c : Nat) : Prop := ∀ r ∈ s.running, r.locks c = false

def Readable (s : CacherSlots) (c : Nat) : Prop := ∀ r ∈ s.running, r.writeLocks c = false

instance (s : CacherSlots) (c : Nat) : Decidable (s.Unlocked c) :=
  inferInstanceAs (Decidable (∀ r ∈ s.running, r.locks c = false))

instance (s : CacherSlots) (c : Nat) : Decidable (s.Readable c) :=
  inferInstanceAs (Decidable (∀ r ∈ s.running, r.writeLocks c = false))

def finishWrite (c ts : Nat) (blockId : Int) (appendWrite : Bool) (ret : Int) (newNode : Nat)
    (s : CacherSlots) : CacherSlots :=
  if 0 ≤ ret then
    if ts < (s.block c).tsWrite then
      -- a late request
      if appendWrite then s.returnToFree newNode blockId else s
    else
      (if appendWrite then s.returnToFree newNode (s.block c).onDiskIndex else s).setBlock c
        { s.block c with tsWrite := ts, onDiskIndex := blockId, ifClean := false }
  else if appendWrite then s.returnToFree newNode blockId
  else s

/-- The end of `read`, after a hit and after a miss, up to the lock it may take. -/
def finishRead (i c : Nat) (blockId : Int) (taken : Bool) (ret : Int) (newNode : Nat)
    (s : CacherSlots) : CacherSlots :=
  if 0 ≤ ret ∧ 0 ≤ blockId then
    s.setRunning i (if (s.block c).onDiskIndex = -1 then .settling c blockId taken else .done)
  else if ret < 0 ∧ (s.block c).onDiskIndex = -1 ∧ 0 ≤ blockId then
    (s.returnToFree newNode blockId).setRunning i .done
  else s.setRunning i .done

def evictTest (entry : Block) : Nat → Bool
  | 0 => entry.onDiskIndex ≠ -1
  | 1 => entry.ifClean
  | _ => !entry.inflightFlush

def afterTest (c k : Nat) (s : CacherSlots) : RunningOp :=
  if evictTest (s.block c) k then if k < 2 then .tests c (k + 1) else .evicts c else .done

def startFlush (c now : Nat) (ret : Int) (s : CacherSlots) : CacherSlots :=
  if ret < 0 then s.setBlock c { s.block c with tsFlush := now }
  else
    { s.setBlock c { s.block c with tsFlush := now, inflightFlush := true } with
      flushes := s.flushes ++ [⟨c, now, now⟩] }

def finishFlush (f : Flush) (ret : Int) (s : CacherSlots) : CacherSlots :=
  if f.tsWrite < (s.block f.c).tsWrite then
    if (s.block f.c).tsFlush ≤ f.tsFlush then
      s.setBlock f.c { s.block f.c with inflightFlush := false }
    else s
  else if ret < 0 then s.setBlock f.c { s.block f.c with inflightFlush := false }
  else s.setBlock f.c { s.block f.c with ifClean := true, inflightFlush := false }

/-- One step. Where an operation may return a slot, `newNode` is the address of the node. -/
inductive Act where
  /-- `m_meta_tbl_lookup` makes a `BLOCK`. -/
  | newBlock
  /-- The first locked section of `write`. -/
  | write (c length ts : Nat)
  /-- Its second `free_lookup`, after `evict_all_clean`. -/
  | lookAgain (i : Nat)
  | finishWrite (i : Nat) (ret : Int) (newNode : Nat)
  /-- `read` looks at the `BLOCK`. -/
  | read (c : Nat)
  /-- A hit: the `BLOCK` is locked. -/
  | lock (i : Nat)
  /-- A hit: `do_read` returns, and the lock is released. -/
  | haveRead (i : Nat)
  /-- A miss: `free_lookup`. -/
  | lookup (i : Nat)
  | finishRead (i : Nat) (ret : Int) (newNode : Nat)
  /-- `read` sets the slot, under the lock. -/
  | settle (i : Nat)
  /-- `do_evict` has got its lock. -/
  | evict (c : Nat)
  /-- It makes a test. -/
  | evictTest (i : Nat)
  /-- It reads the index. -/
  | readIndex (i : Nat)
  /-- `return_to_free`. -/
  | giveBack (i newNode : Nat)
  /-- `reset`. -/
  | reset (i now : Nat)
  /-- `do_flush`; it reads the slot first. -/
  | flush (c now : Nat) (ret : Int)
  | finishFlush (i : Nat) (ret : Int)

/-- What the locked section of `write` does, with room for `objectSize` bytes in a slot. -/
def startWrite (objectSize c length ts : Nat) (s : CacherSlots) : CacherSlots :=
  let index := (s.block c).onDiskIndex
  if index ≠ -1 ∧ length < objectSize then s.begin (.writing c ts index false)
  else if 0 ≤ s.freeSlot then s.freeLookup.begin (.writing c ts s.freeSlot true)
  else s.freeLookup.begin (.evicting c ts)

def lookAgain (i c ts : Nat) (s : CacherSlots) : CacherSlots :=
  if 0 ≤ s.freeSlot then s.freeLookup.setRunning i (.writing c ts s.freeSlot true)
  else if (s.block c).onDiskIndex = -1 then s.freeLookup.setRunning i .done
  else s.freeLookup.setRunning i (.writing c ts (s.block c).onDiskIndex false)

def step (objectSize : Nat) (s : CacherSlots) : Act → Option CacherSlots
  | .newBlock => some { s with blocks := s.blocks ++ [{}] }
  | .write c length ts =>
    if c < s.blocks.length ∧ s.Unlocked c then some (s.startWrite objectSize c length ts)
    else none
  | .lookAgain i =>
    match s.running[i]? with
    | some (.evicting c ts) => some (s.lookAgain i c ts)
    | _ => none
  | .finishWrite i ret newNode =>
    match s.running[i]? with
    | some (.writing c ts blockId appendWrite) =>
      if s.Unlocked c ∧ s.freeList.nodes newNode = none then
        some ((s.finishWrite c ts blockId appendWrite ret newNode).setRunning i .done)
      else none
    | _ => none
  | .read c =>
    if c < s.blocks.length then
      some (s.begin (if (s.block c).onDiskIndex ≠ -1 then .hit c else .miss c))
    else none
  | .lock i =>
    match s.running[i]? with
    | some (.hit c) =>
      if s.Readable c then some (s.setRunning i (.reading c (s.block c).onDiskIndex)) else none
    | _ => none
  | .haveRead i =>
    match s.running[i]? with
    | some (.reading c blockId) => some (s.setRunning i (.haveRead c blockId))
    | _ => none
  | .lookup i =>
    match s.running[i]? with
    | some (.miss c) => some (s.freeLookup.setRunning i (.missed c s.freeSlot))
    | _ => none
  | .finishRead i ret newNode =>
    match s.running[i]? with
    | some (.haveRead c blockId) =>
      -- a read from an offset below zero has failed
      if s.freeList.nodes newNode = none ∧ (0 ≤ ret → 0 ≤ blockId) then
        some (s.finishRead i c blockId false ret newNode)
      else none
    | some (.missed c blockId) =>
      if s.freeList.nodes newNode = none then
        some (s.finishRead i c blockId true ret newNode)
      else none
    | _ => none
  | .settle i =>
    match s.running[i]? with
    | some (.settling c blockId _) =>
      if s.Unlocked c then
        some ((s.setBlock c { s.block c with onDiskIndex := blockId }).setRunning i .done)
      else none
    | _ => none
  | .evict c =>
    if c < s.blocks.length ∧ s.Unlocked c then some (s.begin (.tests c 0)) else none
  | .evictTest i =>
    match s.running[i]? with
    | some (.tests c k) => some (s.setRunning i (s.afterTest c k))
    | _ => none
  | .readIndex i =>
    match s.running[i]? with
    | some (.evicts c) => some (s.setRunning i (.returns c (s.block c).onDiskIndex))
    | _ => none
  | .giveBack i newNode =>
    match s.running[i]? with
    | some (.returns c blockId) =>
      if s.freeList.nodes newNode = none then
        some ((s.returnToFree newNode blockId).setRunning i (.resets c))
      else none
    | _ => none
  | .reset i now =>
    match s.running[i]? with
    | some (.resets c) => some ((s.setBlock c { tsFlush := now }).setRunning i .done)
    | _ => none
  | .flush c now ret =>
    if c < s.blocks.length ∧ s.Readable c ∧ (s.block c).onDiskIndex ≠ -1
        ∧ (s.block c).ifClean = false ∧ (s.block c).inflightFlush = false then
      some (s.startFlush c now ret)
    else none
  | .finishFlush i ret =>
    match s.flushes[i]? with
    | some f =>
      if s.Unlocked f.c then
        some { s.finishFlush f ret with flushes := s.flushes.eraseIdx i }
      else none
    | none => none

end CacherSlots

end HDCS
