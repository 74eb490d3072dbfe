import Mathlib.Data.List.Induction
import HDCS.Core.Request

/-!
# The flat volume

What a cache in front of a backend is meant to look like from outside: every
block is an array of bytes, a WRITE replaces a range of it, a READ returns a
range of it, and nothing else about a request can be observed.
-/

namespace HDCS

open Lib

variable {bs : Nat}

/-- The block after the request: only a WRITE changes it. -/
def applyWrite (req : BlockRequest bs) (w : Bytes) : Bytes :=
  if req.ioType = .write then memcpy w req.offset req.data 0 req.size else w

/-- The block after a sequence of requests. -/
def flat (w : Bytes) (reqs : List (BlockRequest bs)) : Bytes :=
  reqs.foldl (fun w req => applyWrite req w) w

/-- `data` holds the range of the block a READ asks for. -/
def Answers (req : BlockRequest bs) (w data : Bytes) : Prop :=
  req.ioType = .read → ∀ i < req.size, data i = w (req.offset + i)

theorem applyWrite_of_ne {req : BlockRequest bs} {w : Bytes} (h : req.ioType ≠ .write) :
    applyWrite req w = w := by
  unfold applyWrite; rw [if_neg h]

theorem applyWrite_write {req : BlockRequest bs} {w : Bytes} (h : req.ioType = .write) :
    applyWrite req w = memcpy w req.offset req.data 0 req.size := by
  unfold applyWrite; rw [if_pos h]

theorem flat_snoc (w : Bytes) (reqs : List (BlockRequest bs)) (req : BlockRequest bs) :
    flat w (reqs ++ [req]) = applyWrite req (flat w reqs) := by
  unfold flat
  rw [List.foldl_append]; rfl

/-- Some WRITE has covered the byte. -/
def Overwritten (reqs : List (BlockRequest bs)) (i : Nat) : Prop :=
  ∃ req ∈ reqs, req.ioType = .write ∧ req.offset ≤ i ∧ i < req.offset + req.size

theorem overwritten_snoc {reqs : List (BlockRequest bs)} {req : BlockRequest bs} {i : Nat} :
    Overwritten (reqs ++ [req]) i ↔ Overwritten reqs i
      ∨ req.ioType = .write ∧ req.offset ≤ i ∧ i < req.offset + req.size := by
  unfold Overwritten
  simp only [List.mem_append, List.mem_singleton, or_and_right, exists_or, exists_eq_left]

theorem flat_eq_iff {w w' : Bytes} {i : Nat} (reqs : List (BlockRequest bs)) :
    flat w reqs i = flat w' reqs i ↔ Overwritten reqs i ∨ w i = w' i := by
  induction reqs using List.reverseRecOn with
  | nil =>
    refine ⟨Or.inr, fun h => h.resolve_left ?_⟩
    rintro ⟨_, hmem, _⟩
    cases hmem
  | append_singleton reqs req ih =>
    rw [flat_snoc, flat_snoc, overwritten_snoc]
    by_cases hw : req.ioType = .write
    · rw [applyWrite_write hw, applyWrite_write hw]
      by_cases hr : req.offset ≤ i ∧ i < req.offset + req.size
      · rw [memcpy_of_mem hr.1 hr.2, memcpy_of_mem hr.1 hr.2]
        exact ⟨fun _ => Or.inl (Or.inr ⟨hw, hr⟩), fun _ => rfl⟩
      · rw [memcpy_of_not_mem hr, memcpy_of_not_mem hr, ih]
        exact or_congr_left (or_iff_left fun h => hr h.2).symm
    · rw [applyWrite_of_ne hw, applyWrite_of_ne hw, ih]
      exact or_congr_left (or_iff_left fun h => hw h.1).symm

end HDCS
