import Mathlib.Data.List.Lex

/-!
# Loops over ordered maps

`Std.TreeMap` is what a `std::map` is: a lookup, and a loop in the order of the keys. What a loop
that makes an entry in every round leaves behind is said by one equation about lookups
(`getElem?_foldl_insert`), and nothing else about the tree is needed afterwards.
-/

namespace Lib.OrderedMap

open List

variable {κ ν α : Type} [Ord κ] [Std.TransOrd κ] [Std.LawfulEqOrd κ]

theorem getElem?_insert [DecidableEq κ] (m : Std.TreeMap κ ν) (k a : κ) (v : ν) :
    (m.insert k v)[a]? = if k = a then some v else m[a]? := by
  rw [Std.TreeMap.getElem?_insert]
  simp only [Std.LawfulEqCmp.compare_eq_iff_eq]

theorem mem_insert {m : Std.TreeMap κ ν} {k a : κ} {v : ν} : a ∈ m.insert k v ↔ k = a ∨ a ∈ m := by
  rw [Std.TreeMap.mem_insert, Std.LawfulEqCmp.compare_eq_iff_eq]

omit [Std.LawfulEqOrd κ] in
theorem mem_iff {m : Std.TreeMap κ ν} {k : κ} : k ∈ m ↔ ∃ v, m[k]? = some v := by
  rw [Std.TreeMap.mem_iff_isSome_getElem?, Option.isSome_iff_exists]

/-- **A loop that makes entries**: the value of an entry depends on its key only. -/
theorem getElem?_foldl_insert [DecidableEq κ] (key : α → κ) (val : κ → ν) (k : κ) :
    ∀ (l : List α) (m : Std.TreeMap κ ν),
      (l.foldl (fun m x => m.insert (key x) (val (key x))) m)[k]?
        = if k ∈ l.map key then some (val k) else m[k]?
  | [], m => by simp
  | x :: l, m => by
    rw [foldl_cons, getElem?_foldl_insert key val k l, getElem?_insert, map_cons]
    by_cases hl : k ∈ l.map key
    · rw [if_pos hl, if_pos (mem_cons_of_mem _ hl)]
    · by_cases hx : key x = k
      · rw [if_neg hl, if_pos hx, if_pos (hx ▸ mem_cons_self), hx]
      · have hnot : k ∉ key x :: l.map key := by
          intro hmem
          rcases mem_cons.mp hmem with heq | hmem
          · exact hx heq.symm
          · exact hl hmem
        rw [if_neg hl, if_neg hx, if_neg hnot]

theorem getElem?_foldl_insertIfNew [DecidableEq κ] (key : α → κ) (val : κ → ν) (k : κ) :
    ∀ (l : List α) (m : Std.TreeMap κ ν), (∀ v, m[k]? = some v → v = val k) →
      (l.foldl (fun m x => m.insertIfNew (key x) (val (key x))) m)[k]?
        = if k ∈ l.map key then some (val k) else m[k]?
  | [], m, _ => by simp
  | x :: l, m, hm => by
    have hfirst : (m.insertIfNew (key x) (val (key x)))[k]?
        = if key x = k then some (val k) else m[k]? := by
      rw [Std.TreeMap.getElem?_insertIfNew]
      simp only [Std.LawfulEqCmp.compare_eq_iff_eq]
      by_cases hx : key x = k
      · rw [if_pos hx, hx]
        by_cases hk : k ∈ m
        · obtain ⟨v, hv⟩ := mem_iff.mp hk
          rw [if_neg (fun h => h.2 hk), hv, hm v hv]
        · rw [if_pos ⟨rfl, hk⟩]
      · rw [if_neg hx, if_neg (fun h => hx h.1)]
    have hval : ∀ v, (m.insertIfNew (key x) (val (key x)))[k]? = some v → v = val k := by
      intro v hv
      rw [hfirst] at hv
      split at hv
      · exact (Option.some.inj hv).symm
      · exact hm v hv
    rw [foldl_cons, getElem?_foldl_insertIfNew key val k l _ hval, hfirst, map_cons]
    by_cases hl : k ∈ l.map key
    · rw [if_pos hl, if_pos (mem_cons_of_mem _ hl)]
    · rw [if_neg hl]
      refine if_congr ?_ rfl rfl
      rw [mem_cons, or_iff_left hl]
      exact eq_comm

end Lib.OrderedMap
