import HDCS.Core.AioCompletion
import Mathlib.Data.List.Nodup

/-!
# How a request is cut

The loop of `create_block_requests` goes from block to block: as long as the range
reaches beyond the block `offset` is in, it takes what is left of that block and
goes on at the start of the next one; then it takes the rest. `Cut` is that, one
case for either, and the facts about the block requests of a request are read off
it by induction: their blocks follow each other, there are `sharedCount` of them,
and copying piece by piece is copying the whole range.
-/

namespace HDCS.Proof

open Lib List

variable {bs : Nat}

structure IsPiece (r : Request) (id dataPtr start len : Nat) (q : BlockRequest bs) : Prop where
  ioType : q.ioType = r.ioType
  data : q.data = fun i => r.data (dataPtr + i)
  offset : q.offset = start % bs
  size : q.size = len
  block : q.block = start / bs
  req : q.req = id

inductive Cut (r : Request) (id : Nat) : Nat → Nat → Nat → List (BlockRequest bs) → Prop where
  /-- The rest of the range is in one block. -/
  | last {dataPtr offset left : Nat} {q : BlockRequest bs} : 0 < left →
      left ≤ bs - offset % bs → IsPiece r id dataPtr offset left q →
      Cut r id dataPtr offset left [q]
  /-- The range goes on in the next block. -/
  | more {dataPtr offset left : Nat} {q : BlockRequest bs} {qs : List (BlockRequest bs)} :
      bs - offset % bs < left → IsPiece r id dataPtr offset (bs - offset % bs) q →
      Cut r id (dataPtr + (bs - offset % bs)) ((offset / bs + 1) * bs) (left - (bs - offset % bs))
        qs →
      Cut r id dataPtr offset left (q :: qs)

theorem next_offset (hbs : 0 < bs) (offset : Nat) :
    offset + (bs - offset % bs) = (offset / bs + 1) * bs := by
  have hmod := Nat.mod_lt offset hbs
  have hdiv := Nat.div_add_mod offset bs
  rw [Nat.add_mul, Nat.one_mul, Nat.mul_comm (offset / bs)]
  omega

theorem splitLoop_zero (hbs : 0 < bs) (r : Request) (id fuel dataPtr offset : Nat) :
    splitLoop bs hbs r id fuel dataPtr offset 0 = [] := by
  cases fuel <;> simp [splitLoop]

/-- **The loop cuts the range**, given a round for every byte. -/
theorem cut_splitLoop (hbs : 0 < bs) (r : Request) (id : Nat) :
    ∀ (fuel dataPtr offset left : Nat), 0 < left → left ≤ fuel →
      Cut r id dataPtr offset left (splitLoop bs hbs r id fuel dataPtr offset left)
  | 0, _, _, left, hpos, hfuel => by omega
  | fuel + 1, dataPtr, offset, left, hpos, hfuel => by
    have hmod := Nat.mod_lt offset hbs
    rw [splitLoop, if_neg (by omega)]
    by_cases hle : left ≤ bs - offset % bs
    -- the loop counts down to zero, and a last round does nothing
    · have hlen : lengthByBlock bs offset left = left := by
        unfold lengthByBlock
        rw [if_neg (by omega)]
      have hrest : splitLoop bs hbs r id fuel (dataPtr + lengthByBlock bs offset left)
          (offset + lengthByBlock bs offset left) (left - lengthByBlock bs offset left) = [] := by
        rw [hlen, Nat.sub_self, splitLoop_zero]
      rw [hrest]
      exact .last hpos hle ⟨rfl, rfl, rfl, hlen, rfl, rfl⟩
    · have hlen : lengthByBlock bs offset left = bs - offset % bs := by
        unfold lengthByBlock
        rw [if_pos (by omega)]
      refine .more (by omega) ⟨rfl, rfl, rfl, hlen, rfl, rfl⟩ ?_
      rw [hlen, next_offset hbs]
      exact cut_splitLoop hbs r id fuel _ _ _ (by omega) (by omega)

theorem cut_createBlockRequests (hbs : 0 < bs) (id : Nat) {r : Request} (hlen : 0 < r.length) :
    Cut r id 0 r.offset r.length (createBlockRequests bs hbs id r) :=
  cut_splitLoop hbs r id r.length 0 r.offset r.length hlen (Nat.le_refl _)

section Cut

variable {r : Request} {id dataPtr offset left : Nat} {qs : List (BlockRequest bs)}

theorem Cut.piece (h : Cut r id dataPtr offset left qs) : ∀ q ∈ qs,
    ∃ p o len, IsPiece r id p o len q := by
  induction h with
  | last _ _ hq => simpa using ⟨_, _, _, hq⟩
  | more _ hq _ ih => exact forall_mem_cons.mpr ⟨⟨_, _, _, hq⟩, ih⟩

theorem Cut.first (h : Cut r id dataPtr offset left qs) : ∃ q ∈ qs, q.block = offset / bs := by
  cases h with
  | last _ _ hq | more _ hq _ => exact ⟨_, mem_cons_self, hq.block⟩

theorem Cut.blocks (hbs : 0 < bs) (h : Cut r id dataPtr offset left qs) :
    qs.map BlockRequest.block = List.range' (offset / bs) qs.length := by
  induction h with
  | last _ _ hq => rw [map_singleton, hq.block]; rfl
  | more _ hq _ ih =>
    rw [map_cons, ih, hq.block, Nat.mul_div_cancel _ hbs]
    rfl

theorem Cut.nodup (hbs : 0 < bs) (h : Cut r id dataPtr offset left qs) :
    (qs.map BlockRequest.block).Nodup := by
  rw [h.blocks hbs]
  exact nodup_range'

/-- **Their number is the one `create_block_requests` counts beforehand.** -/
theorem Cut.length (hbs : 0 < bs) (h : Cut r id dataPtr offset left qs) :
    qs.length = sharedCount bs offset left := by
  induction h with
  | @last dataPtr offset left q hpos hle hq =>
    have hmod := Nat.mod_lt offset hbs
    unfold sharedCount
    dsimp only
    rcases Nat.lt_or_ge (left + offset % bs) bs with hlt | hge
    · rw [Nat.mod_eq_of_lt hlt, Nat.div_eq_of_lt hlt, if_neg (by omega)]
      rfl
    · -- the piece ends with its block
      have heq : left + offset % bs = bs := by omega
      rw [heq, Nat.mod_self, Nat.div_self hbs]
      rfl
  | @more dataPtr offset left q qs hlt hq _ ih =>
    have hmod := Nat.mod_lt offset hbs
    -- the first block is filled up, and the rest begins at a block
    have hsum : left + offset % bs = bs + (left - (bs - offset % bs)) := by omega
    rw [length_cons, ih]
    unfold sharedCount
    rw [hsum]
    simp only [Nat.mul_mod_left, Nat.add_zero, Nat.add_mod_left, Nat.add_div_left _ hbs]
    omega

theorem Cut.block_lt {n : Nat} (hbs : 0 < bs) (h : Cut r id dataPtr offset left qs)
    (hn : offset + left ≤ n * bs) : ∀ q ∈ qs, q.block < n := by
  induction h with
  | @last dataPtr offset left q hpos _ hq =>
    intro q' hq'
    rw [mem_singleton.mp hq', hq.block]
    exact Nat.div_lt_of_lt_mul (by rw [Nat.mul_comm]; omega)
  | @more dataPtr offset left q qs hlt hq _ ih =>
    have hnext := next_offset hbs offset
    refine forall_mem_cons.mpr ⟨?_, ih (by omega)⟩
    rw [hq.block]
    exact Nat.div_lt_of_lt_mul (by rw [Nat.mul_comm]; omega)

theorem IsPiece.addr {len : Nat} {q : BlockRequest bs} (h : IsPiece r id dataPtr offset len q) :
    q.block * bs + q.offset = offset := by
  rw [h.block, h.offset, Nat.mul_comm]
  exact Nat.div_add_mod offset bs

def writePiece (w : Bytes) (q : BlockRequest bs) : Bytes :=
  memcpy w (q.block * bs + q.offset) q.data 0 q.size

theorem IsPiece.write {len : Nat} {q : BlockRequest bs} (h : IsPiece r id dataPtr offset len q)
    (w : Bytes) : writePiece w q = memcpy w offset r.data dataPtr len := by
  unfold writePiece
  rw [h.addr, h.data, h.size]
  funext i
  by_cases hi : offset ≤ i ∧ i < offset + len
  · rw [memcpy_of_mem hi.1 hi.2, memcpy_of_mem hi.1 hi.2, Nat.zero_add]
  · rw [memcpy_of_not_mem hi, memcpy_of_not_mem hi]

/-- **Writing piece by piece is writing the range.** -/
theorem Cut.write (hbs : 0 < bs) (h : Cut r id dataPtr offset left qs) (w : Bytes) :
    qs.foldl writePiece w = memcpy w offset r.data dataPtr left := by
  induction h generalizing w with
  | last _ _ hq => exact hq.write w
  | @more dataPtr offset left q qs hlt hq _ ih =>
    have hnext := next_offset hbs offset
    rw [foldl_cons, ih, hq.write, ← hnext, memcpy_memcpy_next (by omega)]

end Cut

end HDCS.Proof
