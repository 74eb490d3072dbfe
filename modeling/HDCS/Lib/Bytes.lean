import Mathlib.Data.List.Nodup
import Mathlib.Logic.Function.Basic
import Mathlib.Tactic.SplitIfs

/-!
# Byte arrays, range copies and blocks

A byte array is a function from addresses, and the one operation on it is
`memcpy`: a range of one array replaces a range of another, and everything else
stays. A store that is read and written in whole blocks is an array cut at the
multiples of the block size, and `block` is what stands between two cuts.

What the users of this file need is that a copy which stays inside one block is
a copy *of that block* (`block_memcpy_self`), and that every other block does
not notice (`block_memcpy_other`).
-/

namespace Lib

open List

/-- An array of bytes, addressed from zero. -/
abbrev Bytes := Nat → UInt8

/-- `memcpy(dst + doff, src + soff, size)`, as the array `dst` becomes. -/
def memcpy (dst : Bytes) (doff : Nat) (src : Bytes) (soff size : Nat) : Bytes :=
  fun i => if doff ≤ i ∧ i < doff + size then src (soff + (i - doff)) else dst i

/-- Block `k` of an array cut into blocks of `n` bytes; nothing beyond its end. -/
def block (n k : Nat) (s : Bytes) : Bytes := fun i => if i < n then s (k * n + i) else 0

def Clipped (n : Nat) (s : Bytes) : Prop := ∀ i, n ≤ i → s i = 0

theorem memcpy_of_mem {dst src : Bytes} {doff soff size i : Nat}
    (h1 : doff ≤ i) (h2 : i < doff + size) :
    memcpy dst doff src soff size i = src (soff + (i - doff)) := by
  unfold memcpy; rw [if_pos ⟨h1, h2⟩]

theorem memcpy_of_not_mem {dst src : Bytes} {doff soff size i : Nat}
    (h : ¬ (doff ≤ i ∧ i < doff + size)) : memcpy dst doff src soff size i = dst i := by
  unfold memcpy; rw [if_neg h]

@[simp] theorem memcpy_zero {dst src : Bytes} {doff soff : Nat} :
    memcpy dst doff src soff 0 = dst := by
  funext i
  exact memcpy_of_not_mem (by omega)

theorem block_of_lt {n k i : Nat} {s : Bytes} (h : i < n) : block n k s i = s (k * n + i) := by
  unfold block; rw [if_pos h]

theorem clipped_block (n k : Nat) (s : Bytes) : Clipped n (block n k s) := by
  intro i hi; unfold block; rw [if_neg (by omega)]

theorem Clipped.memcpy {n doff soff size : Nat} {dst src : Bytes} (h : Clipped n dst)
    (hb : doff + size ≤ n) : Clipped n (memcpy dst doff src soff size) := by
  intro i hi
  rw [memcpy_of_not_mem (by omega)]
  exact h i hi

theorem memcpy_whole {n soff : Nat} {dst dst' src : Bytes} (h : Clipped n dst)
    (h' : Clipped n dst') : memcpy dst 0 src soff n = memcpy dst' 0 src soff n := by
  funext i
  by_cases hi : i < n
  · rw [memcpy_of_mem (by omega) (by omega), memcpy_of_mem (by omega) (by omega)]
  · rw [memcpy_of_not_mem (by omega), memcpy_of_not_mem (by omega), h i (by omega), h' i (by omega)]

theorem memcpy_copied {n : Nat} {dst buf w : Bytes} (h : Clipped n dst) (hw : Clipped n w) :
    memcpy dst 0 (memcpy buf 0 w 0 n) 0 n = w := by
  funext i
  by_cases hi : i < n
  · rw [memcpy_of_mem (by omega) (by omega), memcpy_of_mem (by omega) (by omega)]
    congr 1; omega
  · rw [memcpy_of_not_mem (by omega), h i (by omega), hw i (by omega)]

theorem memcpy_merged {n off soff size : Nat} {w buf src : Bytes} (h : off + size ≤ n) :
    memcpy w 0 (memcpy (memcpy buf 0 w 0 n) off src soff size) 0 n
      = memcpy w off src soff size := by
  funext i
  by_cases hi : i < n
  · rw [memcpy_of_mem (by omega) (by omega)]
    by_cases hr : off ≤ i ∧ i < off + size
    · rw [memcpy_of_mem (by omega) (by omega), memcpy_of_mem hr.1 hr.2]
      congr 2; omega
    · rw [memcpy_of_not_mem (by omega), memcpy_of_not_mem hr, memcpy_of_mem (by omega) (by omega)]
      congr 1; omega
  · rw [memcpy_of_not_mem (by omega), memcpy_of_not_mem (by omega)]

theorem memcpy_memcpy_next {off soff len size : Nat} {w src : Bytes} (h : len ≤ size) :
    memcpy (memcpy w off src soff len) (off + len) src (soff + len) (size - len)
      = memcpy w off src soff size := by
  funext i
  by_cases h₁ : off + len ≤ i ∧ i < off + len + (size - len)
  · rw [memcpy_of_mem h₁.1 h₁.2, memcpy_of_mem (by omega) (by omega)]
    congr 1; omega
  · rw [memcpy_of_not_mem h₁]
    by_cases h₂ : off ≤ i ∧ i < off + len
    · rw [memcpy_of_mem h₂.1 h₂.2, memcpy_of_mem h₂.1 (by omega)]
    · rw [memcpy_of_not_mem h₂, memcpy_of_not_mem (by omega)]

theorem memcpy_eq_self_iff {n soff : Nat} {dst src : Bytes} :
    memcpy dst 0 src soff n = dst ↔ ∀ i < n, src (soff + i) = dst i := by
  constructor
  · intro h i hi
    rw [← congrFun h i, memcpy_of_mem (by omega) (by omega), Nat.sub_zero]
  · intro h
    funext i
    by_cases hi : i < n
    · rw [memcpy_of_mem (by omega) (by omega), ← h i hi, Nat.sub_zero]
    · rw [memcpy_of_not_mem (by omega)]

theorem eq_memcpy_iff {n off size : Nat} {x w src : Bytes} (hx : Clipped n x) (hw : Clipped n w) :
    x = memcpy w off src 0 size
      ↔ (∀ i < size, x (off + i) = src i)
        ∧ ∀ i < n, ¬ (off ≤ i ∧ i < off + size) → x i = w i := by
  constructor
  · rintro rfl
    refine ⟨fun i hi => ?_, fun i _ hi => memcpy_of_not_mem hi⟩
    rw [memcpy_of_mem (by omega) (by omega), Nat.zero_add, Nat.add_sub_cancel_left]
  · rintro ⟨hin, hout⟩
    funext i
    by_cases hr : off ≤ i ∧ i < off + size
    · have hbyte := hin (i - off) (by omega)
      rw [Nat.add_sub_cancel' hr.1] at hbyte
      rw [memcpy_of_mem hr.1 hr.2, hbyte, Nat.zero_add]
    · rw [memcpy_of_not_mem hr]
      by_cases hi : i < n
      · exact hout i hi hr
      · rw [hx i (by omega), hw i (by omega)]

/-- **Copies that agree.** Where every copy brings the bytes of `f`, their order does not matter. -/
theorem foldl_memcpy_apply {α : Type} {dst src len : α → Nat} {mem f : Bytes} {l : List α}
    (h : ∀ x ∈ l, ∀ i < len x, mem (src x + i) = f (dst x + i)) (w : Bytes) (j : Nat) :
    l.foldl (fun w x => memcpy w (dst x) mem (src x) (len x)) w j
      = if ∃ x ∈ l, dst x ≤ j ∧ j < dst x + len x then f j else w j := by
  induction l generalizing w with
  | nil => simp
  | cons x l ih =>
    rw [foldl_cons, ih fun y hy => h y (mem_cons_of_mem x hy)]
    by_cases hrest : ∃ y ∈ l, dst y ≤ j ∧ j < dst y + len y
    · rw [if_pos hrest, if_pos (exists_mem_cons_iff .. |>.mpr (.inr hrest))]
    · rw [if_neg hrest]
      by_cases hx : dst x ≤ j ∧ j < dst x + len x
      · have hbyte := h x mem_cons_self (j - dst x) (by omega)
        rw [memcpy_of_mem hx.1 hx.2, if_pos ⟨x, mem_cons_self, hx⟩, hbyte, Nat.add_sub_cancel' hx.1]
      · rw [memcpy_of_not_mem hx, if_neg]
        rw [exists_mem_cons_iff]
        exact not_or.mpr ⟨hx, hrest⟩

theorem block_addr_ne {n j k x y : Nat} (hjk : j ≠ k) (hx : x < n) (hy : y < n) :
    j * n + x ≠ k * n + y := by
  intro h
  rcases Nat.lt_or_gt_of_ne hjk with hlt | hlt
  · have : (j + 1) * n ≤ k * n := Nat.mul_le_mul_right n hlt
    rw [Nat.add_mul] at this
    omega
  · have : (k + 1) * n ≤ j * n := Nat.mul_le_mul_right n hlt
    rw [Nat.add_mul] at this
    omega

theorem block_memcpy_self {n k off soff size : Nat} {s src : Bytes} (h : off + size ≤ n) :
    block n k (memcpy s (k * n + off) src soff size) = memcpy (block n k s) off src soff size := by
  funext i
  by_cases hi : i < n
  · rw [block_of_lt hi]
    by_cases hr : off ≤ i ∧ i < off + size
    · rw [memcpy_of_mem (by omega) (by omega), memcpy_of_mem hr.1 hr.2]
      congr 2; omega
    · rw [memcpy_of_not_mem (by omega), memcpy_of_not_mem hr, block_of_lt hi]
  · rw [clipped_block n k _ i (by omega), memcpy_of_not_mem (by omega),
      clipped_block n k _ i (by omega)]

theorem block_memcpy_whole {n k soff : Nat} {s src : Bytes} :
    block n k (memcpy s (k * n) src soff n) = memcpy (block n k s) 0 src soff n := by
  have h : 0 + n ≤ n := by omega
  exact block_memcpy_self h

theorem block_memcpy_other {n j k off soff size : Nat} {s src : Bytes} (hjk : j ≠ k)
    (h : off + size ≤ n) : block n j (memcpy s (k * n + off) src soff size) = block n j s := by
  funext i
  by_cases hi : i < n
  · rw [block_of_lt hi, block_of_lt hi]
    refine memcpy_of_not_mem ?_
    rintro ⟨h1, h2⟩
    have hy : j * n + i - k * n < n := by omega
    exact block_addr_ne hjk hi hy (by omega)
  · rw [clipped_block n j _ i (by omega), clipped_block n j _ i (by omega)]

theorem block_memcpy_whole_other {n j k soff : Nat} {s src : Bytes} (hjk : j ≠ k) :
    block n j (memcpy s (k * n) src soff n) = block n j s := by
  have h : 0 + n ≤ n := by omega
  exact block_memcpy_other hjk h

section Foldl

variable {α : Type} {n : Nat} {f : Bytes → α → Bytes} {key : α → Nat} {g : α → Bytes → Bytes}

theorem block_foldl_other {b : Nat}
    (hother : ∀ a x, b ≠ key a → block n b (f x a) = block n b x) :
    ∀ (l : List α) (x : Bytes), b ∉ l.map key → block n b (l.foldl f x) = block n b x
  | [], _, _ => rfl
  | a :: l, x, h => by
    rw [map_cons, mem_cons, not_or] at h
    rw [foldl_cons, block_foldl_other hother l _ h.2, hother a x h.1]

theorem block_foldl_self (hself : ∀ a x, block n (key a) (f x a) = g a (block n (key a) x))
    (hother : ∀ b a x, b ≠ key a → block n b (f x a) = block n b x) :
    ∀ (l : List α) (x : Bytes), (l.map key).Nodup → ∀ a ∈ l,
      block n (key a) (l.foldl f x) = g a (block n (key a) x)
  | [], _, _, a, h => nomatch h
  | a' :: l, x, hn, a, h => by
    rw [map_cons, nodup_cons] at hn
    rw [foldl_cons]
    rcases mem_cons.mp h with rfl | h
    · rw [block_foldl_other (hother _) l _ hn.1, hself]
    · have hne : key a ≠ key a' := fun he => hn.1 (he ▸ mem_map_of_mem h)
      rw [block_foldl_self hself hother l _ hn.2 a h, hother _ _ _ hne]

end Foldl

theorem memcpy_block_src {n k doff off size : Nat} {dst s : Bytes} (h : off + size ≤ n) :
    memcpy dst doff (block n k s) off size = memcpy dst doff s (k * n + off) size := by
  funext i
  by_cases hr : doff ≤ i ∧ i < doff + size
  · rw [memcpy_of_mem hr.1 hr.2, memcpy_of_mem hr.1 hr.2, block_of_lt (by omega)]
    congr 1; omega
  · rw [memcpy_of_not_mem hr, memcpy_of_not_mem hr]

section Window

variable {n off soff doff size : Nat} {s dst src : Bytes}

def window (n off : Nat) (s : Bytes) : Bytes := fun i => if i < n then s (off + i) else 0

theorem window_of_lt {i : Nat} (h : i < n) : window n off s i = s (off + i) := if_pos h

theorem clipped_window (n off : Nat) (s : Bytes) : Clipped n (window n off s) :=
  fun _ hi => if_neg (Nat.not_lt.mpr hi)

theorem window_memcpy (h : size ≤ n) :
    window n off (memcpy s off src soff size) = memcpy (window n off s) 0 src soff size := by
  funext i
  by_cases hi : i < size
  · rw [window_of_lt (Nat.lt_of_lt_of_le hi h), memcpy_of_mem (by omega) (by omega),
      memcpy_of_mem (by omega) (by omega), Nat.add_sub_cancel_left, Nat.sub_zero]
  · rw [memcpy_of_not_mem (by omega)]
    by_cases hn : i < n
    · rw [window_of_lt hn, window_of_lt hn, memcpy_of_not_mem (by omega)]
    · rw [clipped_window n off _ i (by omega), clipped_window n off _ i (by omega)]

theorem memcpy_window_src (h : size ≤ n) :
    memcpy dst doff (window n off s) 0 size = memcpy dst doff s off size := by
  funext i
  by_cases hr : doff ≤ i ∧ i < doff + size
  · rw [memcpy_of_mem hr.1 hr.2, memcpy_of_mem hr.1 hr.2, Nat.zero_add, window_of_lt (by omega)]
  · rw [memcpy_of_not_mem hr, memcpy_of_not_mem hr]

end Window

end Lib
