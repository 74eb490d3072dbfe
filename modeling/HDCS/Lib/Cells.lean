import Mathlib.Data.List.GetD
import Mathlib.Logic.Function.Basic
import Mathlib.Tactic.SplitIfs

/-!
# Rows of cells

A memory of cells that values are put into one after the other. `fill` is what a loop over
`*dst++ = x` leaves behind: the values in a row, and every other cell as it was.
-/

namespace Lib

open List

variable {β : Type}

/-- The values from the cell `base` on. -/
def fill (mem : Nat → β) (base : Nat) (xs : List β) : Nat → β :=
  fun i => if base ≤ i then xs.getD (i - base) (mem i) else mem i

@[simp] theorem fill_nil (mem : Nat → β) (base : Nat) : fill mem base [] = mem := by
  funext i
  unfold fill
  split_ifs <;> rfl

theorem fill_cons (mem : Nat → β) (base : Nat) (x : β) (xs : List β) :
    fill mem base (x :: xs) = fill (Function.update mem base x) (base + 1) xs := by
  funext i
  unfold fill
  by_cases hi : i = base
  · subst hi
    rw [if_pos (Nat.le_refl _), if_neg (by omega), Nat.sub_self, Function.update_self]
    rfl
  · rw [Function.update_of_ne hi]
    by_cases hle : base ≤ i
    · obtain ⟨j, rfl⟩ : ∃ j, i = base + 1 + j := ⟨i - base - 1, by omega⟩
      rw [if_pos hle, if_pos (by omega), Nat.add_sub_cancel_left,
        show base + 1 + j - base = j + 1 by omega]
      rfl
    · rw [if_neg hle, if_neg (by omega)]

theorem fill_apply (mem : Nat → β) (base : Nat) {xs : List β} {i : Nat} (hi : i < xs.length) :
    fill mem base xs (base + i) = xs[i] := by
  unfold fill
  rw [if_pos (Nat.le_add_right ..), Nat.add_sub_cancel_left, getD_eq_getElem _ _ hi]

theorem fill_of_ge (mem : Nat → β) {base : Nat} {xs : List β} {i : Nat}
    (hi : base + xs.length ≤ i) : fill mem base xs i = mem i := by
  unfold fill
  rw [if_pos (by omega), getD_eq_default _ _ (by omega)]

theorem isSome_fill (mem : Nat → Option β) (base : Nat) (xs : List β) (i : Nat) :
    (fill mem base (xs.map some) i).isSome ↔ base ≤ i ∧ i < base + xs.length ∨ (mem i).isSome := by
  by_cases hin : base ≤ i ∧ i < base + xs.length
  · obtain ⟨j, rfl⟩ : ∃ j, i = base + j := ⟨i - base, by omega⟩
    have hj : j < (xs.map some).length := by
      rw [length_map]
      omega
    rw [fill_apply mem base hj, getElem_map]
    exact iff_of_true rfl (Or.inl hin)
  · have hsame : fill mem base (xs.map some) i = mem i := by
      by_cases hle : base ≤ i
      · exact fill_of_ge mem (by rw [length_map]; omega)
      · unfold fill
        rw [if_neg hle]
    rw [hsame, or_iff_right hin]

theorem fill_append (mem : Nat → β) (base : Nat) (xs ys : List β) :
    fill mem base (xs ++ ys) = fill (fill mem base xs) (base + xs.length) ys := by
  induction xs generalizing mem base with
  | nil => rw [nil_append, fill_nil, length_nil, Nat.add_zero]
  | cons x xs ih =>
    rw [cons_append, fill_cons, fill_cons, ih, length_cons, Nat.add_assoc, Nat.add_comm 1]

end Lib
