import Mathlib.Data.List.Nodup
import Mathlib.Logic.Function.Basic

/-!
# Singly linked nodes

A heap maps addresses to nodes, a node has a value and a link. `Leads heap first l` says
that who starts at `first` and follows the links passes the nodes of `l`, with their
values, and comes to an end.

A heap and a start lead through one list only (`Leads.unique`). Writes to other addresses do
not show (`Leads.update_of_notMem`), and a node is put at the end by redirecting the last one
(`Leads.concat`).
-/

namespace Lib

open Function List

structure SinglyLinked.Node (α : Type) where
  value : α
  next : Option Nat
  deriving DecidableEq

namespace SinglyLinked

variable {α : Type}

abbrev Heap (α : Type) := Nat → Option (Node α)

def Leads (heap : Heap α) : Option Nat → List (Nat × α) → Prop
  | first, [] => first = none
  | first, x :: l => first = some x.1 ∧ ∃ next, heap x.1 = some ⟨x.2, next⟩ ∧ Leads heap next l

variable {heap : Heap α} {first : Option Nat} {l l' : List (Nat × α)} {x : Nat × α} {p : Nat}

theorem Leads.unique (h : Leads heap first l) (h' : Leads heap first l') : l = l' := by
  induction l generalizing first l' with
  | nil =>
    obtain rfl : first = none := h
    cases l' with
    | nil => rfl
    | cons y l' => exact absurd h'.1 (by simp)
  | cons x l ih =>
    obtain ⟨rfl, next, hx, hl⟩ := h
    cases l' with
    | nil => cases h'
    | cons y l' =>
      obtain ⟨hfirst, next', hy, hl'⟩ := h'
      have haddr : x.1 = y.1 := Option.some.inj hfirst
      rw [haddr, hy] at hx
      obtain ⟨hvalue, hnext⟩ := Node.mk.inj (Option.some.inj hx)
      rw [ih hl (hnext ▸ hl')]
      exact congrArg (· :: l') (Prod.ext haddr hvalue.symm)

theorem Leads.ne_none (h : Leads heap first l) (hx : x ∈ l) : heap x.1 ≠ none := by
  induction l generalizing first with
  | nil => exact absurd hx not_mem_nil
  | cons y l ih =>
    obtain ⟨-, next, hy, hl⟩ := h
    rcases mem_cons.mp hx with rfl | hx
    · rw [hy]
      exact Option.some_ne_none _
    · exact ih hl hx

theorem Leads.update_of_notMem {y : Option (Node α)} (h : Leads heap first l)
    (hp : p ∉ l.map Prod.fst) : Leads (update heap p y) first l := by
  induction l generalizing first with
  | nil => exact h
  | cons x l ih =>
    obtain ⟨hfirst, next, hx, hl⟩ := h
    rw [map_cons, mem_cons, not_or] at hp
    exact ⟨hfirst, next, by rwa [update_of_ne (Ne.symm hp.1)], ih hl hp.2⟩

theorem Leads.last (h : Leads heap first (l ++ [x])) : heap x.1 = some ⟨x.2, none⟩ := by
  induction l generalizing first with
  | nil =>
    obtain ⟨-, next, hx, hnext⟩ := h
    rwa [show next = none from hnext] at hx
  | cons y l ih =>
    obtain ⟨-, next, -, hl⟩ := h
    exact ih hl

theorem Leads.concat {v : α} (h : Leads heap first (l ++ [x])) (hp : heap p = some ⟨v, none⟩)
    (hnodup : ((l ++ [x]).map Prod.fst).Nodup) (hnew : p ∉ (l ++ [x]).map Prod.fst) :
    Leads (update heap x.1 (some ⟨x.2, some p⟩)) first (l ++ [x] ++ [(p, v)]) := by
  induction l generalizing first with
  | nil =>
    obtain ⟨hfirst, -⟩ := h
    have hne : p ≠ x.1 := fun he => hnew (he ▸ mem_cons_self)
    exact ⟨hfirst, some p, update_self .., rfl, none, by rwa [update_of_ne hne], rfl⟩
  | cons y l ih =>
    obtain ⟨hfirst, next, hy, hl⟩ := h
    rw [cons_append, map_cons, nodup_cons] at hnodup
    rw [cons_append, map_cons, mem_cons, not_or] at hnew
    have hne : y.1 ≠ x.1 := by
      intro he
      exact hnodup.1 (he ▸ mem_map_of_mem (mem_append_right _ mem_cons_self))
    exact ⟨hfirst, next, by rwa [update_of_ne hne], ih hl hnodup.2 hnew.2⟩

end SinglyLinked

end Lib
