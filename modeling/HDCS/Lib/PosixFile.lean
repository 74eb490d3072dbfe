import HDCS.Lib.Bytes

/-!
# Regular files

A file has a size and bytes, and reads as zero behind its end if it is made longer. `pread` copies
no more than there is, and leaves the rest of the buffer as it was; `pwrite` makes a file
longer where it has to.

A read is complete, the zeros behind the end included, if and only if those are in the buffer
already (`pread_eq_iff`).
-/

namespace Lib

/-- A regular file. -/
structure PosixFile where
  size : Nat
  data : Bytes
  /-- There is nothing behind the end. -/
  clipped : Clipped size data

namespace PosixFile

variable (f : PosixFile) (buf : Bytes) (count offset : Nat)

/-- `ftruncate`. -/
def ftruncate (length : Nat) : PosixFile where
  size := length
  data := fun i => if i < length then f.data i else 0
  clipped := fun _ hi => if_neg (Nat.not_lt.mpr hi)

/-- `pread`: the buffer, and how many bytes were read. -/
def pread : Bytes × Nat :=
  (memcpy buf 0 f.data offset (min count (f.size - offset)), min count (f.size - offset))

/-- `pwrite`: the file, and how many bytes were written. -/
def pwrite : PosixFile × Nat :=
  if count = 0 then (f, 0)
  else
    ({ size := max f.size (offset + count)
       data := memcpy f.data offset buf 0 count
       clipped := Clipped.memcpy (fun i hi => f.clipped i (by omega)) (by omega) }, count)

/-- `fallocate` with `FALLOC_FL_PUNCH_HOLE | FALLOC_FL_KEEP_SIZE`. -/
def punchHole (len : Nat) : PosixFile where
  size := f.size
  data := memcpy f.data offset (fun _ => 0) 0 len
  clipped := by
    intro i hi
    rw [memcpy]
    split_ifs
    · rfl
    · exact f.clipped i hi

variable {f buf count offset}

theorem ftruncate_data {length : Nat} (h : f.size ≤ length) :
    (f.ftruncate length).data = f.data := by
  funext i
  by_cases hi : i < length
  · exact if_pos hi
  · rw [f.clipped i (by omega)]
    exact if_neg hi

theorem pwrite_data : (f.pwrite buf count offset).1.data = memcpy f.data offset buf 0 count := by
  rw [pwrite]
  split_ifs with hzero
  · rw [hzero, memcpy_zero]
  · rfl

theorem size_le_pwrite : f.size ≤ (f.pwrite buf count offset).1.size := by
  rw [pwrite]
  split_ifs
  · exact Nat.le_refl _
  · exact Nat.le_max_left ..

theorem pread_fst :
    (f.pread buf count offset).1 = memcpy buf 0 f.data offset (min count (f.size - offset)) := rfl

theorem pread_eq_iff :
    (f.pread buf count offset).1 = memcpy buf 0 f.data offset count
      ↔ ∀ i < count, f.size ≤ offset + i → buf i = 0 := by
  constructor
  · intro h i hi hend
    have hbyte := congrFun h i
    rw [pread_fst, memcpy_of_not_mem (by omega), memcpy_of_mem (by omega) (by omega)] at hbyte
    rw [hbyte, f.clipped _ (by omega)]
  · intro h
    funext i
    by_cases hcopied : i < min count (f.size - offset)
    · rw [pread_fst, memcpy_of_mem (by omega) (by omega), memcpy_of_mem (by omega) (by omega)]
    · rw [pread_fst, memcpy_of_not_mem (by omega)]
      by_cases hi : i < count
      · rw [memcpy_of_mem (by omega) (by omega), f.clipped _ (by omega), h i hi (by omega)]
      · rw [memcpy_of_not_mem (by omega)]

end PosixFile

end Lib
