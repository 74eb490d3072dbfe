import Mathlib.Algebra.Order.BigOperators.Group.List
import Mathlib.Algebra.Ring.Nat

/-!
# Counting the members of a list while one of them changes

A group of threads is a list of their states, and a step of one of them replaces
an element of it. What is counted over all of them, or added up, changes by what
that one contributed before and after.

What the threads count themselves is in a `uint64_t`.
-/

namespace Lib

open List

variable {α : Type} {l : List α} {i : Nat} {a b : α}

theorem sum_map_set_add {M : Type} [AddCommMonoid M] (f : α → M) :
    ∀ {l : List α} {i : Nat} {a : α} (b : α), l[i]? = some a →
      ((l.set i b).map f).sum + f a = (l.map f).sum + f b
  | [], _, _, _, h => nomatch h
  | x :: l, 0, a, b, h => by
    obtain rfl : x = a := by simpa using h
    simp only [set_cons_zero, map_cons, sum_cons]
    rw [add_right_comm, add_comm (f b), add_right_comm]
  | x :: l, i + 1, a, b, h => by
    have ih := sum_map_set_add f (l := l) (i := i) b (by simpa using h)
    simp only [set_cons_succ, map_cons, sum_cons]
    rw [add_assoc, ih, add_assoc]

theorem countP_set_add (p : α → Bool) :
    ∀ {l : List α} {i : Nat} {a : α} (b : α), l[i]? = some a →
      (l.set i b).countP p + (p a).toNat = l.countP p + (p b).toNat
  | [], _, _, _, h => nomatch h
  | x :: l, 0, a, b, h => by
    obtain rfl : x = a := by simpa using h
    simp only [set_cons_zero, countP_cons]
    cases p x <;> cases p b <;> simp
  | x :: l, i + 1, a, b, h => by
    have ih := countP_set_add p (l := l) (i := i) b (by simpa using h)
    simp only [set_cons_succ, countP_cons]
    omega

theorem countP_set_eq (p : α → Bool) (h : l[i]? = some a) (hp : p b = p a) :
    (l.set i b).countP p = l.countP p := by
  have hadd := countP_set_add p b h
  rw [hp] at hadd
  omega

theorem count_set_add [BEq α] [LawfulBEq α] [DecidableEq α] (x b : α)
    (h : l[i]? = some a) :
    (l.set i b).count x + (if a = x then 1 else 0) = l.count x + if b = x then 1 else 0 := by
  have hset := countP_set_add (· == x) b h
  have htoNat : ∀ y : α, (y == x).toNat = if y = x then 1 else 0 := by
    intro y
    by_cases hy : y = x
    · rw [if_pos hy, beq_iff_eq.mpr hy]
      rfl
    · rw [if_neg hy, beq_false_of_ne hy]
      rfl
  rw [← htoNat, ← htoNat]
  exact hset

theorem mem_set_iff_of_ne {x : α} (h : l[i]? = some a) (hne : a ≠ x) :
    x ∈ l.set i b ↔ x = b ∨ x ∈ l := by
  constructor
  · intro hx
    exact (mem_or_eq_of_mem_set hx).symm
  · intro hx
    rcases hx with rfl | hx
    · exact mem_set (List.getElem?_eq_some_iff.mp h).1 x
    · obtain ⟨j, hj⟩ := mem_iff_getElem?.mp hx
      refine mem_iff_getElem?.mpr ⟨j, ?_⟩
      rw [getElem?_set_ne, hj]
      rintro rfl
      exact hne (Option.some.inj (h.symm.trans hj))

theorem map_set_eq {β : Type} {f : α → β} (h : l[i]? = some a) (hf : f b = f a) :
    (l.set i b).map f = l.map f := by
  rw [map_set, hf]
  refine ext_getElem? fun j => ?_
  by_cases hij : i = j
  · subst hij
    rw [getElem?_set_self', getElem?_map, h]
    rfl
  · rw [getElem?_set_ne hij]

theorem lt_of_getElem? (h : l[i]? = some a) : i < l.length := (List.getElem?_eq_some_iff.mp h).1

theorem getElem?_set_cases {j : Nat} {x : α} (h : l[i]? = some a) (hx : (l.set i b)[j]? = some x) :
    (j = i ∧ x = b) ∨ (i ≠ j ∧ l[j]? = some x) := by
  by_cases hij : i = j
  · subst hij
    rw [getElem?_set_self (lt_of_getElem? h)] at hx
    exact Or.inl ⟨rfl, (Option.some.inj hx).symm⟩
  · rw [getElem?_set_ne hij] at hx
    exact Or.inr ⟨hij, hx⟩

theorem getElem?_concat_cases {x : α} (hx : (l ++ [b])[i]? = some x) :
    l[i]? = some x ∨ (i = l.length ∧ x = b) := by
  rcases Nat.lt_or_ge i l.length with hlt | hge
  · rw [getElem?_append_left hlt] at hx
    exact Or.inl hx
  · rw [getElem?_append_right hge, getElem?_singleton] at hx
    split at hx
    · exact Or.inr ⟨by omega, (Option.some.inj hx).symm⟩
    · cases hx

theorem forall_mem_set {p : α → Prop} (hl : ∀ x ∈ l, p x) (hb : p b) : ∀ x ∈ l.set i b, p x := by
  intro x hx
  rcases mem_or_eq_of_mem_set hx with hx | rfl
  · exact hl x hx
  · exact hb

theorem countP_lt_of_getElem? {p q : α → Bool} (hpq : ∀ x, p x = true → q x = true)
    (h : l[i]? = some a) (hp : p a = false) (hq : q a = true) : l.countP p < l.countP q := by
  have hle : ∀ l : List α, l.countP p ≤ l.countP q := fun l =>
    countP_mono_left fun x _ => hpq x
  induction l generalizing i with
  | nil => cases h
  | cons x l ih =>
    have hl := hle l
    rw [countP_cons, countP_cons]
    cases i with
    | zero =>
      obtain rfl : x = a := by simpa using h
      rw [hp, hq]
      simp only [Bool.false_eq_true, if_false, if_true]
      omega
    | succ i =>
      have hrest := ih (i := i) (by simpa using h)
      have hx : (if p x = true then 1 else 0) ≤ if q x = true then 1 else 0 := by
        by_cases hpx : p x = true
        · rw [if_pos hpx, if_pos (hpq x hpx)]
        · rw [if_neg hpx]
          exact Nat.zero_le _
      omega

theorem exists_append_of_getElem? (h : l[i]? = some a) :
    ∃ before after, l = before ++ a :: after ∧ ∀ b, l.set i b = before ++ b :: after := by
  obtain ⟨hlt, rfl⟩ := List.getElem?_eq_some_iff.mp h
  refine ⟨l.take i, l.drop (i + 1), ?_, fun b => ?_⟩
  · rw [getElem_cons_drop, take_append_drop]
  · rw [set_eq_take_append_cons_drop, if_pos hlt]

/-! ### Counters of 64 bits -/

@[irreducible] def incr64 (n : Nat) : Nat := (n + 1) % 2 ^ 64

@[irreducible] def decr64 (n : Nat) : Nat := (n + (2 ^ 64 - 1)) % 2 ^ 64

theorem incr64_lt (n : Nat) : incr64 n < 2 ^ 64 := by
  unfold incr64
  exact Nat.mod_lt _ (Nat.two_pow_pos 64)

theorem decr64_lt (n : Nat) : decr64 n < 2 ^ 64 := by
  unfold decr64
  exact Nat.mod_lt _ (Nat.two_pow_pos 64)

theorem incr64_eq {n : Nat} (h : n + 1 < 2 ^ 64) : incr64 n = n + 1 := by
  unfold incr64
  exact Nat.mod_eq_of_lt h

theorem decr64_eq {n : Nat} (hpos : 0 < n) (h : n < 2 ^ 64) : decr64 n = n - 1 := by
  unfold decr64
  omega

end Lib
