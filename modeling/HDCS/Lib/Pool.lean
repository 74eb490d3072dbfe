import Mathlib.Data.List.Nodup
import Mathlib.Logic.Function.Basic

/-!
# A pool of resources

Finitely or infinitely many holders share a set of resources. A resource is in
the free list or with a holder, never both, and never with two holders; a holder
has at most one. Taking a free resource and giving one back keep it so.
-/

namespace Lib

open Function

variable {ι α : Type} [DecidableEq ι] [DecidableEq α]

structure Pool (own : ι → Option α) (free : List α) : Prop where
  nodup : free.Nodup
  inj : ∀ i j x, own i = some x → own j = some x → i = j
  disjoint : ∀ x ∈ free, ∀ i, own i ≠ some x
  cover : ∀ x, x ∈ free ∨ ∃ i, own i = some x

variable {own : ι → Option α} {free : List α} {i : ι} {x : α}

omit [DecidableEq ι] [DecidableEq α] in
theorem Pool.all_free (hnd : free.Nodup) (hall : ∀ x, x ∈ free) :
    Pool (fun _ : ι => none) free where
  nodup := hnd
  inj := fun _ _ _ h => nomatch h
  disjoint := fun _ _ _ h => nomatch h
  cover := fun x => Or.inl (hall x)

theorem Pool.take (h : Pool own free) (hx : x ∈ free) (hi : own i = none) :
    Pool (update own i (some x)) (free.erase x) where
  nodup := h.nodup.erase x
  inj := by
    intro j k y hj hk
    by_cases hji : j = i <;> by_cases hki : k = i
    · rw [hji, hki]
    · subst hji
      rw [update_self] at hj
      rw [update_of_ne hki, ← Option.some.inj hj] at hk
      exact absurd hk (h.disjoint x hx k)
    · subst hki
      rw [update_self] at hk
      rw [update_of_ne hji, ← Option.some.inj hk] at hj
      exact absurd hj (h.disjoint x hx j)
    · rw [update_of_ne hji] at hj
      rw [update_of_ne hki] at hk
      exact h.inj j k y hj hk
  disjoint := by
    intro y hy j hj
    obtain ⟨hne, hmem⟩ := h.nodup.mem_erase_iff.mp hy
    by_cases hji : j = i
    · subst hji
      rw [update_self] at hj
      exact hne (Option.some.inj hj).symm
    · rw [update_of_ne hji] at hj
      exact h.disjoint y hmem j hj
  cover := by
    intro y
    by_cases hyx : y = x
    · subst hyx; exact Or.inr ⟨i, update_self ..⟩
    · rcases h.cover y with hy | ⟨j, hj⟩
      · exact Or.inl (h.nodup.mem_erase_iff.mpr ⟨hyx, hy⟩)
      · have hji : j ≠ i := by
          rintro rfl
          rw [hi] at hj; cases hj
        exact Or.inr ⟨j, by rw [update_of_ne hji]; exact hj⟩

theorem Pool.give (h : Pool own free) (hi : own i = some x) :
    Pool (update own i none) (x :: free.erase x) where
  nodup := List.nodup_cons.mpr ⟨fun hx => (h.nodup.mem_erase_iff.mp hx).1 rfl, h.nodup.erase x⟩
  inj := by
    intro j k y hj hk
    have hne : ∀ j, update own i none j = some y → own j = some y := by
      intro j hj
      by_cases hji : j = i
      · subst hji
        rw [update_self] at hj; cases hj
      · rwa [update_of_ne hji] at hj
    exact h.inj j k y (hne j hj) (hne k hk)
  disjoint := by
    intro y hy j hj
    by_cases hji : j = i
    · subst hji
      rw [update_self] at hj; cases hj
    · rw [update_of_ne hji] at hj
      rcases List.mem_cons.mp hy with rfl | hy
      · exact hji (h.inj j i y hj hi)
      · exact h.disjoint y (List.mem_of_mem_erase hy) j hj
  cover := by
    intro y
    by_cases hyx : y = x
    · exact Or.inl (List.mem_cons.mpr (Or.inl hyx))
    · rcases h.cover y with hy | ⟨j, hj⟩
      · exact Or.inl (List.mem_cons_of_mem _ (h.nodup.mem_erase_iff.mpr ⟨hyx, hy⟩))
      · have hji : j ≠ i := by
          rintro rfl
          exact hyx (Option.some.inj (hj.symm.trans hi))
        exact Or.inr ⟨j, by rw [update_of_ne hji]; exact hj⟩

end Lib
