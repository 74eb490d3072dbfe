import Mathlib.Data.List.Induction
import Mathlib.Data.List.Nodup
import Mathlib.Logic.Function.Basic

/-!
# Doubly linked nodes

A heap maps addresses to nodes, a node has a key and two links. `Seg heap prev l
next` says that the nodes at the addresses in `l` form a row: their keys are the
ones `l` has, the first points back to `prev`, the last one on to `next`, and any
two neighbours point to each other.

What an algorithm on such a row does is write a link at one of its two ends, and
there is one lemma for either (`Seg.setNext`, `Seg.setPrev`). A row can be cut
anywhere (`seg_append`), so a write in the middle is a write at an end of a part.
Writes to other addresses do not show (`Seg.update_of_notMem`).

A loop that follows one of the links goes along a `Path`. There is one from each end
(`Seg.path_next`, `Seg.path_prev`).
-/

namespace Lib

open Function List

structure LinkNode (α : Type) where
  key : α
  prev : Option Nat
  next : Option Nat
  deriving DecidableEq

namespace DoublyLinked

variable {α : Type}

abbrev Heap (α : Type) := Nat → Option (LinkNode α)

def first (next : Option Nat) : List (Nat × α) → Option Nat
  | [] => next
  | x :: _ => some x.1

def last (prev : Option Nat) : List (Nat × α) → Option Nat
  | [] => prev
  | x :: l => last (some x.1) l

def Seg (heap : Heap α) (prev : Option Nat) : List (Nat × α) → Option Nat → Prop
  | [], _ => True
  | x :: l, next =>
    heap x.1 = some ⟨x.2, prev, first next l⟩ ∧ Seg heap (some x.1) l next

def addrs (l : List (Nat × α)) : List Nat := l.map Prod.fst

def keys (l : List (Nat × α)) : List α := l.map Prod.snd

section Ends

variable {prev next : Option Nat} {l l' : List (Nat × α)} {x : Nat × α}

theorem first_append : first next (l ++ l') = first (first next l') l := by
  cases l <;> rfl

theorem last_append : last prev (l ++ l') = last (last prev l) l' := by
  induction l generalizing prev with
  | nil => rfl
  | cons x l ih => exact ih

@[simp] theorem last_snoc : last prev (l ++ [x]) = some x.1 := by
  rw [last_append]; rfl

end Ends

section Seg

variable {heap heap' : Heap α} {prev next next' prev' : Option Nat} {l l' : List (Nat × α)}
  {x : Nat × α} {p : Nat}

theorem seg_append : Seg heap prev (l ++ l') next
    ↔ Seg heap prev l (first next l') ∧ Seg heap (last prev l) l' next := by
  induction l generalizing prev with
  | nil => exact ⟨fun h => ⟨trivial, h⟩, fun h => h.2⟩
  | cons x l ih =>
    rw [cons_append]
    simp only [Seg, last]
    rw [ih, first_append, and_assoc]

theorem Seg.node (h : Seg heap prev (l ++ x :: l') next) :
    heap x.1 = some ⟨x.2, last prev l, first next l'⟩ := (seg_append.mp h).2.1

theorem Seg.update_of_notMem {y : Option (LinkNode α)} (h : Seg heap prev l next)
    (hp : p ∉ addrs l) : Seg (update heap p y) prev l next := by
  induction l generalizing prev with
  | nil => trivial
  | cons x l ih =>
    rw [addrs, map_cons, mem_cons, not_or] at hp
    exact ⟨by rw [update_of_ne (Ne.symm hp.1)]; exact h.1, ih h.2 hp.2⟩

theorem Seg.setNext (h : Seg heap prev (l ++ [x]) next) (hp : x.1 ∉ addrs l) :
    Seg (update heap x.1 (some ⟨x.2, last prev l, next'⟩)) prev (l ++ [x]) next' := by
  obtain ⟨hl, _⟩ := seg_append.mp h
  refine seg_append.mpr ⟨hl.update_of_notMem hp, ?_, trivial⟩
  exact update_self ..

theorem Seg.setPrev (h : Seg heap prev (x :: l) next) (hp : x.1 ∉ addrs l) :
    Seg (update heap x.1 (some ⟨x.2, prev', first next l⟩)) prev' (x :: l) next :=
  ⟨update_self .., h.2.update_of_notMem hp⟩

theorem Seg.push {k : α} (h : Seg heap prev (x :: l) next) (hx : x.1 ∉ addrs l)
    (hp : p ∉ addrs (x :: l)) :
    Seg (update (update heap p (some ⟨k, none, some x.1⟩)) x.1
      (some ⟨x.2, some p, first next l⟩)) none ((p, k) :: x :: l) next := by
  have hne : p ≠ x.1 := fun he => hp (by rw [he]; exact mem_cons_self)
  refine ⟨?_, (h.update_of_notMem hp).setPrev hx⟩
  rw [update_of_ne hne, update_self]
  rfl

end Seg

section Path

def Path (link : LinkNode α → Option Nat) (heap : Heap α) : Option Nat → List α → Prop
  | _, [] => True
  | src, k :: ks => ∃ p node, src = some p ∧ heap p = some node ∧ node.key = k
      ∧ Path link heap (link node) ks

variable {heap : Heap α} {prev next : Option Nat} {l : List (Nat × α)}

theorem Seg.path_next (h : Seg heap prev l next) :
    Path LinkNode.next heap (first next l) (keys l) := by
  induction l generalizing prev with
  | nil => trivial
  | cons x l ih => exact ⟨x.1, _, rfl, h.1, rfl, ih h.2⟩

theorem Seg.path_prev (h : Seg heap prev l next) :
    Path LinkNode.prev heap (last prev l) (keys l).reverse := by
  induction l using List.reverseRecOn generalizing next with
  | nil => trivial
  | append_singleton l x ih =>
    rw [last_snoc, keys, map_append, reverse_append]
    exact ⟨x.1, _, rfl, h.node, rfl, ih (seg_append.mp h).1⟩

end Path

end DoublyLinked

end Lib
