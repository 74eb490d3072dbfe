import HDCS.Lib.Cells
import Mathlib.Data.List.Nodup

/-!
# The LRU list

`LRU_LIST` as the sequence of its keys, most recently used first. That its
linked nodes represent such a sequence is a matter of its own; here the list is
what the policy sees of it. `get_head` of an empty list yields no key.
-/

namespace HDCS

open Lib

/-- A call of one of the operations of an `LRU_LIST`. -/
inductive LruCall (α : Type) where
  | touchKey (k : α)
  | remove (k : α)
  | getKeys (dst requiredLen : Nat) (mostRecentTop : Bool)
  | getLength
  deriving DecidableEq, Repr

/-- A list, and the one that calls it. -/
structure LruCaller (σ α : Type) where
  list : σ
  /-- What `dst` points into. -/
  mem : Nat → α
  /-- What `get_length` has returned. -/
  lengths : List Nat

namespace LruList

variable {α : Type} [DecidableEq α]

/-- `touch_key`: move the key to the front, or insert it there. -/
def touchKey (k : α) (l : List α) : List α := k :: l.erase k

def remove (k : α) (l : List α) : List α := l.erase k

omit [DecidableEq α] in
def getHead (l : List α) : Option α := l.head?

omit [DecidableEq α] in
/-- The keys that `get_keys` writes. -/
def getKeys (requiredLen : Nat) (mostRecentTop : Bool) (l : List α) : List α :=
  (if mostRecentTop then l else l.reverse).take requiredLen

/-- The operations on a sequence. -/
def call (s : LruCaller (List α) α) : LruCall α → LruCaller (List α) α
  | .touchKey k => { s with list := touchKey k s.list }
  | .remove k => { s with list := remove k s.list }
  | .getKeys dst requiredLen mostRecentTop =>
    { s with mem := fill s.mem dst (getKeys requiredLen mostRecentTop s.list) }
  | .getLength => { s with lengths := s.lengths ++ [s.list.length] }

@[simp] theorem mem_touchKey {k x : α} {l : List α} : x ∈ touchKey k l ↔ x = k ∨ x ∈ l := by
  unfold touchKey
  rw [List.mem_cons]
  by_cases h : x = k
  · simp [h]
  · rw [List.mem_erase_of_ne h]

theorem nodup_touchKey {k : α} {l : List α} (h : l.Nodup) : (touchKey k l).Nodup := by
  unfold touchKey
  rw [List.nodup_cons]
  exact ⟨fun hk => (h.mem_erase_iff.mp hk).1 rfl, h.erase k⟩

theorem mem_remove {k x : α} {l : List α} (h : l.Nodup) : x ∈ remove k l ↔ x ≠ k ∧ x ∈ l :=
  h.mem_erase_iff

theorem mem_remove_of_ne {k x : α} {l : List α} (h : x ≠ k) : x ∈ remove k l ↔ x ∈ l :=
  List.mem_erase_of_ne h

theorem nodup_remove {k : α} {l : List α} (h : l.Nodup) : (remove k l).Nodup := h.erase k

omit [DecidableEq α] in
theorem mem_of_getHead {k : α} {l : List α} (h : getHead l = some k) : k ∈ l :=
  List.mem_of_head? h

end LruList

end HDCS
