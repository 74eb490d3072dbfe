import HDCS.Lib.DoublyLinked
import HDCS.Core.LruList

/-!
# The LRU list as it is linked

`LRU_Linklist.h`: nodes with a `prev` and a `next` pointer, a map from keys to
nodes, and the two ends. A node is an address in `heap`; a node that was deleted
is not there any more. An operation that follows a null pointer, or one to a
deleted node, has no result.

A node has its key through an iterator into the map (`_it`). `boost::unordered_map`
allows a rehash to invalidate it; here the iterators stay valid, and a node simply
has its key.

`get_head` is the one that can: it reads the key of `head` without asking whether
there is one. `get_keys` goes by the length and does not look at the pointers.
-/

namespace HDCS

open Lib Function

/-- `LRU_LIST`. -/
structure LruLinklist (α : Type) where
  heap : DoublyLinked.Heap α
  /-- Where the next node will be allocated. -/
  nextAddr : Nat
  /-- `_key_to_point_map`. -/
  keyToPoint : α → Option Nat
  head : Option Nat
  tail : Option Nat
  length : Nat

namespace LruLinklist

variable {α : Type}

def new : LruLinklist α where
  heap := fun _ => none
  nextAddr := 0
  keyToPoint := fun _ => none
  head := none
  tail := none
  length := 0

def getHead (l : LruLinklist α) : Option α := do
  let p ← l.head
  let node ← l.heap p
  return node.key

def setNext (p : Nat) (x : Option Nat) (l : LruLinklist α) : Option (LruLinklist α) := do
  let node ← l.heap p
  return { l with heap := update l.heap p (some { node with next := x }) }

def setPrev (p : Nat) (x : Option Nat) (l : LruLinklist α) : Option (LruLinklist α) := do
  let node ← l.heap p
  return { l with heap := update l.heap p (some { node with prev := x }) }

def linkOn (key : Nat) (origPrev origNext : Option Nat) (l : LruLinklist α) :
    Option (LruLinklist α) :=
  if l.head = some key then some { l with head := origNext }
  else origPrev.bind fun p => l.setNext p origNext

def linkBack (origPrev origNext : Option Nat) (l : LruLinklist α) : Option (LruLinklist α) :=
  match origNext with
  | some q => l.setPrev q origPrev
  | none => some { l with tail := origPrev }

/-- `head = key; head->next = head_next; head->prev = NULL; head_next->prev = head;`. -/
def putFirst (key headNext : Nat) (l : LruLinklist α) : Option (LruLinklist α) := do
  let l ← { l with head := some key }.setNext key (some headNext)
  let l ← l.setPrev key none
  l.setPrev headNext (some key)

def touchNode (key : Nat) (l : LruLinklist α) : Option (LruLinklist α) :=
  if l.head = some key then some l
  else do
    let headNext ← l.head
    let node ← l.heap key
    let l ← node.prev.bind fun p => l.setNext p node.next
    let l ← l.linkBack node.prev node.next
    l.putFirst key headNext

/--
The loop of `get_keys`, with `left = length - count`: `*dst++ = src->_it->first`, on along the link,
and out if that is enough. A cell of `dst` gets what `put` makes of a key.
-/
def copyKeys {β : Type} (put : α → β) (link : LinkNode α → Option Nat) (heap : DoublyLinked.Heap α)
    (requiredLen : Nat) : Nat → Nat → Option Nat → Nat → (Nat → β) → Option (Nat → β)
  | 0, _, _, _, mem => some mem
  | left + 1, count, src, dst, mem => do
    let p ← src
    let node ← heap p
    let mem := update mem dst (put node.key)
    if count + 1 = requiredLen then return mem
    else copyKeys put link heap requiredLen left (count + 1) (link node) (dst + 1) mem

def getKeys {β : Type} (put : α → β) (dst requiredLen : Nat) (mostRecentTop : Bool)
    (l : LruLinklist α) (mem : Nat → β) : Option (Nat → β) :=
  if requiredLen = 0 then some mem
  else if mostRecentTop then
    copyKeys put LinkNode.next l.heap requiredLen l.length 0 l.head dst mem
  else copyKeys put LinkNode.prev l.heap requiredLen l.length 0 l.tail dst mem

def getLength (l : LruLinklist α) : Nat := l.length

variable [DecidableEq α]

def insert (k : α) (l : LruLinklist α) : Option (LruLinklist α) :=
  let node := l.nextAddr
  let l' : LruLinklist α := { l with
    heap := update l.heap node (some ⟨k, none, l.head⟩)
    nextAddr := node + 1
    keyToPoint := update l.keyToPoint k (some node)
    head := some node
    length := l.length + 1 }
  match l.head with
  | some p => l'.setPrev p (some node)
  | none => some { l' with tail := some node }

def removeNode (key : Nat) (l : LruLinklist α) : Option (LruLinklist α) := do
  let node ← l.heap key
  let l ← l.linkOn key node.prev node.next
  let l ← l.linkBack node.prev node.next
  return { l with
    length := l.length - 1
    keyToPoint := update l.keyToPoint node.key none
    heap := update l.heap key none }

def touchKey (k : α) (l : LruLinklist α) : Option (LruLinklist α) :=
  match l.keyToPoint k with
  | some p => l.touchNode p
  | none => l.insert k

def remove (k : α) (l : LruLinklist α) : Option (LruLinklist α) :=
  match l.keyToPoint k with
  | some p => l.removeNode p
  | none => some l

/-- The operations on the linked list. -/
def call (s : LruCaller (LruLinklist α) α) : LruCall α → Option (LruCaller (LruLinklist α) α)
  | .touchKey k => (s.list.touchKey k).map fun l => { s with list := l }
  | .remove k => (s.list.remove k).map fun l => { s with list := l }
  | .getKeys dst requiredLen mostRecentTop =>
    (s.list.getKeys id dst requiredLen mostRecentTop s.mem).map fun mem => { s with mem }
  | .getLength => some { s with lengths := s.lengths ++ [s.list.getLength] }

end LruLinklist

end HDCS
