import HDCS.Core.LruLinklist
import HDCS.Lib.Bytes
import HDCS.Lib.Rounding

/-!
# Lists of blocks

`CachePolicy::process` and `CachePolicy::flush_all` copy keys out of the LRU lists into a
`block_list` of their own and then walk it. They read how many keys there are, allocate and clear
the list, and copy: each of these is a step of its own, and the workers touch and remove keys in
between. `get_keys` takes the lock of one list for one copy.

A slot is a pointer of eight bytes. `malloc` returns what is there, and `memset` is given the number
of slots where it takes bytes, so it clears the first slots only. `process` follows every pointer in
the list. `flush_all` leaves out those that are null.

How many blocks are too many is computed in single precision: the number of cached blocks becomes a
`float`, and so does its difference to the share the cache may keep. The share itself, the product
of `cache_ratio_health` and `cache_blocks_count`, is a `float` too; it is exact here.
-/

namespace HDCS

open Lib

/-- The members of `CachePolicy` that tell how many blocks are to leave the cache. -/
structure EvictionConfig where
  cacheBlocksCount : Nat
  cacheRatioHealth : ℚ

namespace EvictionConfig

def truncate (q : ℚ) : Int := q.num.tdiv q.den

/-- What the cache may keep. -/
def share (cfg : EvictionConfig) : ℚ := cfg.cacheRatioHealth * cfg.cacheBlocksCount

/-- `need_to_evict_count`; a `float` has 24 bits. -/
def needToEvict (cfg : EvictionConfig) (total : Nat) : Int :=
  truncate (roundTo 24 (roundTo 24 total - cfg.share))

def needToFlush (need clean : Nat) : Nat := if need > clean then need - clean else 0

end EvictionConfig

structure BlockList (α : Type) where
  /-- The memory as `malloc` returned it, where it is not cleared. -/
  bytes : Bytes
  /-- The slots that `get_keys` has written. -/
  slots : Nat → Option α

namespace BlockList

variable {α : Type}

def malloc (bytes : Bytes) : BlockList α := ⟨bytes, fun _ => none⟩

def memset (n : Nat) (l : BlockList α) : BlockList α :=
  { l with bytes := fun j => if j < n then 0 else l.bytes j }

def isNull (l : BlockList α) (i : Nat) : Bool :=
  match l.slots i with
  | some _ => false
  | none => (List.range 8).all fun j => l.bytes (8 * i + j) = 0

end BlockList

/-- Who has the list. -/
inductive ListUser where
  | process
  | flushAll
  deriving DecidableEq, Repr

inductive EvictionPhase where
  /-- `dirty_lru.get_length()`. -/
  | dirtyLength
  /-- `clean_lru.get_length()`, in `process`. -/
  | cleanLength (dirty : Nat)
  /-- `sleep(1)`. -/
  | sleep
  /-- `malloc`. -/
  | allocate (need flush : Nat)
  /-- `memset`. -/
  | clear (need flush : Nat)
  /-- `dirty_lru.get_keys`. -/
  | copyDirty (need flush : Nat)
  /-- `clean_lru.get_keys`, in `process`. -/
  | copyClean (need flush : Nat)
  /-- `block_list[i]`. -/
  | walk (need i : Nat)
  | returned
  deriving DecidableEq, Repr

/-- The lists, and a thread that copies from them. -/
structure Eviction (cfg : EvictionConfig) (α : Type) where
  user : ListUser
  dirty : LruLinklist α
  clean : LruLinklist α
  phase : EvictionPhase
  list : BlockList α
  /-- How many keys each `get_keys` of this round was asked for, and how many there were. -/
  copies : List (Nat × Nat)
  /-- What the slots are that were followed in this round. -/
  derefs : List (Option α)

namespace Eviction

variable {cfg : EvictionConfig} {α : Type}

def new (user : ListUser) : Eviction cfg α :=
  ⟨user, .new, .new, .dirtyLength, .malloc fun _ => 0, [], []⟩

/-- One step of a worker or of the thread. -/
inductive Act (α : Type) where
  | touchDirty (k : α)
  | touchClean (k : α)
  | removeDirty (k : α)
  | removeClean (k : α)
  /-- The thread gets memory with these bytes in it. -/
  | malloc (bytes : Bytes)
  /-- Any other step of the thread. -/
  | thread

def afterLengths (cfg : EvictionConfig) (dirty clean : Nat) : EvictionPhase :=
  let need := cfg.needToEvict (dirty + clean)
  if need < 0 then .dirtyLength
  else if need = 0 then .sleep
  else .allocate need.toNat (EvictionConfig.needToFlush need.toNat clean)

def afterDirty (need flush : Nat) : ListUser → EvictionPhase
  | .process => .copyClean need flush
  | .flushAll => .walk need 0

def copy (s : Eviction cfg α) (lru : LruLinklist α) (base n : Nat) (phase : EvictionPhase) :
    Option (Eviction cfg α) :=
  (lru.getKeys some base n false s.list.slots).map fun slots =>
    { s with
      phase
      list := { s.list with slots }
      copies := s.copies ++ [(n, lru.getLength)] }

def follows (s : Eviction cfg α) (i : Nat) : Bool :=
  match s.user with
  | .process => true
  | .flushAll => !s.list.isNull i

def visit (s : Eviction cfg α) (need i : Nat) : Eviction cfg α :=
  if i < need then
    { s with
      phase := .walk need (i + 1)
      derefs := if s.follows i then s.derefs ++ [s.list.slots i] else s.derefs }
  else
    match s.user with
    | .process => { s with phase := .dirtyLength }
    | .flushAll => { s with phase := .returned }

def threadStep (s : Eviction cfg α) : Option (Eviction cfg α) :=
  match s.phase with
  | .dirtyLength =>
    let n := s.dirty.getLength
    let phase := match s.user with
      | .process => .cleanLength n
      | .flushAll => .allocate n n
    some { s with phase, copies := [], derefs := [] }
  | .cleanLength dirty => some { s with phase := afterLengths cfg dirty s.clean.getLength }
  | .sleep => some { s with phase := .dirtyLength }
  | .allocate _ _ => none
  | .clear need flush =>
    some { s with phase := .copyDirty need flush, list := s.list.memset (need + 1) }
  | .copyDirty need flush =>
    if flush ≠ 0 then s.copy s.dirty 0 flush (afterDirty need flush s.user)
    else some { s with phase := afterDirty need flush s.user }
  | .copyClean need flush => s.copy s.clean flush (need - flush) (.walk need 0)
  | .walk need i => some (s.visit need i)
  | .returned => none

variable [DecidableEq α]

def step (s : Eviction cfg α) : Act α → Option (Eviction cfg α)
  | .touchDirty k => (s.dirty.touchKey k).map fun l => { s with dirty := l }
  | .touchClean k => (s.clean.touchKey k).map fun l => { s with clean := l }
  | .removeDirty k => (s.dirty.remove k).map fun l => { s with dirty := l }
  | .removeClean k => (s.clean.remove k).map fun l => { s with clean := l }
  | .malloc bytes =>
    match s.phase with
    | .allocate need flush => some { s with phase := .clear need flush, list := .malloc bytes }
    | _ => none
  | .thread => s.threadStep

end Eviction

end HDCS
