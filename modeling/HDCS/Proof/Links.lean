import HDCS.Core.HDCSCore
import Mathlib.Data.List.Nodup
import Mathlib.Data.List.GetD
import Mathlib.Data.List.Flatten

/-!
# Chains as linked lists, and the threads on them

What the hand-over is stated in. A chain is the list of its pointers (`ptrs`);
the chains of a block are linked by the `block_op_next` of their
`BlockRequestComplete`s (`Linked`); and a thread is at the operation it is about
to send (`token`). The lemmas say what a step does to each of these: a chain is
appended behind the last one (`Linked.append`), and a task that goes on moves at
most its own token (`filterMap_continueAs_same`, `filterMap_continueAs_single`).
-/

namespace HDCS

open List

def Task.ptr : Task → Ptr
  | .send p => p
  | .completed p _ => p

namespace Workers

variable {n bs : Nat} {P : Policy n bs}

def ptrs (w : Workers P) (k : Nat) : List Ptr :=
  (List.range ((w.chains k).ops.length + 1)).map (Ptr.mk k)

def token (w : Workers P) (b : Nat) : Task → Option Ptr
  | .send p => if w.blockOf p = b then some p else none
  | .completed p true => if w.blockOf p = b then w.blockOpNext p else none
  | .completed _ false => none

def tokens (w : Workers P) (b : Nat) : List Ptr := w.tasks.filterMap (w.token b)

def Linked (w : Workers P) : Nat → List Nat → Prop
  | k, [] => w.blockOpNext (w.completeOp k) = none
  | k, k' :: ks => w.blockOpNext (w.completeOp k) = some ⟨k', 0⟩ ∧ w.Linked k' ks

def chainAt (w : Workers P) (k i : Nat) (failed : Bool) : Chain n bs :=
  { w.chains k with ops := (w.chains k).ops.drop i, bufs := w.bufs k, failed := failed }

section Pointers

variable {w w' : Workers P} {k i b : Nat}

theorem ptrs_take_succ (hi : i ≤ (w.chains k).ops.length) :
    (w.ptrs k).take (i + 1) = (w.ptrs k).take i ++ [⟨k, i⟩] := by
  unfold ptrs
  rw [← map_take, ← map_take, take_range, take_range,
    Nat.min_eq_left (by omega), Nat.min_eq_left (by omega), range_succ, map_append]
  rfl

theorem ptrs_getElem? (hi : i ≤ (w.chains k).ops.length) : (w.ptrs k)[i]? = some ⟨k, i⟩ := by
  unfold ptrs
  rw [getElem?_map, getElem?_range (by omega)]
  rfl

theorem ptrs_take_all : (w.ptrs k).take ((w.chains k).ops.length + 1) = w.ptrs k := by
  apply take_of_length_le
  simp [ptrs]

theorem mem_ptrs {p : Ptr} : p ∈ w.ptrs k ↔ p.chain = k ∧ p.index ≤ (w.chains k).ops.length := by
  unfold ptrs
  rw [mem_map]
  constructor
  · rintro ⟨j, hj, rfl⟩
    exact ⟨rfl, Nat.lt_succ_iff.mp (mem_range.mp hj)⟩
  · rintro ⟨rfl, hi⟩
    exact ⟨p.index, mem_range.mpr (by omega), rfl⟩

theorem mem_ptrs_take {p : Ptr} (h : p ∈ (w.ptrs k).take i) : p.chain = k ∧ p.index < i := by
  unfold ptrs at h
  rw [← map_take, take_range, mem_map] at h
  obtain ⟨j, hj, rfl⟩ := h
  exact ⟨rfl, Nat.lt_of_lt_of_le (mem_range.mp hj) (Nat.min_le_left _ _)⟩

theorem completeOp_mem_ptrs : w.completeOp k ∈ w.ptrs k := mem_ptrs.mpr ⟨rfl, Nat.le_refl _⟩

theorem nodup_ptrs : (w.ptrs k).Nodup := by
  refine List.Nodup.map ?_ nodup_range
  intro i j h
  exact congrArg Ptr.index h

theorem ptrs_congr (h : w'.chains k = w.chains k) : w'.ptrs k = w.ptrs k := by
  unfold ptrs; rw [h]

theorem completeOp_congr (h : w'.chains k = w.chains k) : w'.completeOp k = w.completeOp k := by
  unfold completeOp; rw [h]

theorem chainAt_congr {failed : Bool} (h : w'.chains k = w.chains k) (hb : w'.bufs k = w.bufs k) :
    w'.chainAt k i failed = w.chainAt k i failed := by
  unfold chainAt; rw [h, hb]

theorem chainAt_ops {p : Ptr} {op : BlockOp n} {failed : Bool} (h : w.opAt p = some op) :
    (w.chainAt p.chain p.index failed).ops
      = op :: (w.chains p.chain).ops.drop (p.index + 1) := by
  obtain ⟨hlt, hget⟩ := List.getElem?_eq_some_iff.mp h
  show (w.chains p.chain).ops.drop p.index = _
  rw [drop_eq_getElem_cons hlt, hget]

theorem flatMap_ptrs_congr {ks : List Nat} (h : ∀ k ∈ ks, w'.chains k = w.chains k) :
    ks.flatMap w'.ptrs = ks.flatMap w.ptrs := by
  refine flatMap_congr fun k hk => ptrs_congr (h k hk)

theorem nodup_flatMap_ptrs {ks : List Nat} (h : ks.Nodup) : (ks.flatMap w.ptrs).Nodup := by
  refine nodup_flatMap.mpr ⟨fun k _ => nodup_ptrs, ?_⟩
  refine h.imp ?_
  intro k k' hne p hp hp'
  exact hne ((mem_ptrs.mp hp).1.symm.trans (mem_ptrs.mp hp').1)

end Pointers

/-! ## Links -/

section Links

variable {w w' : Workers P}

theorem Linked.congr {ks : List Nat} {k : Nat} (h : w.Linked k ks)
    (hc : ∀ j ∈ k :: ks, w'.chains j = w.chains j)
    (hn : ∀ j ∈ k :: ks, w'.blockOpNext (w.completeOp j) = w.blockOpNext (w.completeOp j)) :
    w'.Linked k ks := by
  induction ks generalizing k with
  | nil =>
    have hk := mem_cons_self (a := k) (l := [])
    rw [Linked, completeOp_congr (hc k hk), hn k hk]
    exact h
  | cons k' ks ih =>
    have hk := mem_cons_self (a := k) (l := k' :: ks)
    refine ⟨?_, ih h.2 (fun j hj => hc j (mem_cons_of_mem _ hj))
      (fun j hj => hn j (mem_cons_of_mem _ hj))⟩
    rw [completeOp_congr (hc k hk), hn k hk]
    exact h.1

theorem Linked.last {ks : List Nat} {k : Nat} (h : w.Linked k ks) :
    w.blockOpNext (w.completeOp (ks.getLastD k)) = none := by
  induction ks generalizing k with
  | nil => exact h
  | cons k' ks ih => rw [getLastD_cons]; exact ih h.2

theorem Linked.append {ks : List Nat} {k new : Nat} (h : w.Linked k ks) (hnd : (k :: ks).Nodup)
    (hc : ∀ j ∈ k :: ks, w'.chains j = w.chains j)
    (hn : ∀ j ∈ k :: ks, j ≠ ks.getLastD k →
      w'.blockOpNext (w.completeOp j) = w.blockOpNext (w.completeOp j))
    (hlast : w'.blockOpNext (w.completeOp (ks.getLastD k)) = some ⟨new, 0⟩)
    (hnew : w'.blockOpNext (w'.completeOp new) = none) : w'.Linked k (ks ++ [new]) := by
  induction ks generalizing k with
  | nil =>
    refine ⟨?_, hnew⟩
    rw [completeOp_congr (hc k mem_cons_self)]
    exact hlast
  | cons k' ks ih =>
    rw [getLastD_cons] at hn hlast
    obtain ⟨hk, hnd'⟩ := nodup_cons.mp hnd
    -- the first of several chains is not the last one
    have hne : k ≠ ks.getLastD k' := by
      intro he
      exact hk (he ▸ getLastD_mem_cons)
    refine ⟨?_, ih h.2 hnd' (fun j hj => hc j (mem_cons_of_mem _ hj))
      (fun j hj => hn j (mem_cons_of_mem _ hj)) hlast⟩
    rw [completeOp_congr (hc k mem_cons_self), hn k mem_cons_self hne]
    exact h.1

end Links

/-! ## Tasks -/

section Tasks

variable {w : Workers P} {i : Nat} {t : Task} {cont : List Task}

theorem tasks_split (h : w.tasks[i]? = some t) :
    w.tasks = w.tasks.take i ++ t :: w.tasks.drop (i + 1) := by
  obtain ⟨hlt, ht⟩ := List.getElem?_eq_some_iff.mp h
  have hd : w.tasks.drop i = t :: w.tasks.drop (i + 1) := by
    rw [drop_eq_getElem_cons hlt, ht]
  rw [← hd, take_append_drop]

theorem mem_continueAs {t' : Task} (h : t' ∈ w.continueAs i cont) : t' ∈ w.tasks ∨ t' ∈ cont := by
  unfold continueAs at h
  rcases mem_append.mp h with h | h
  · rcases mem_append.mp h with h | h
    · exact Or.inl (mem_of_mem_take h)
    · exact Or.inr h
  · exact Or.inl (mem_of_mem_drop h)

theorem filterMap_continueAs_same {g : Task → Option Ptr} (h : w.tasks[i]? = some t)
    (hc : cont.filterMap g = (g t).toList) :
    (w.continueAs i cont).filterMap g = w.tasks.filterMap g := by
  conv_rhs => rw [tasks_split h]
  unfold continueAs
  rw [filterMap_append, filterMap_append, filterMap_append, hc, filterMap_cons, append_assoc]
  cases g t <;> rfl

theorem filterMap_continueAs_single {g : Task → Option Ptr} {p : Ptr}
    (h : w.tasks[i]? = some t) (ht : g t = some p) (hs : w.tasks.filterMap g = [p]) :
    (w.continueAs i cont).filterMap g = cont.filterMap g := by
  rw [tasks_split h, filterMap_append, filterMap_cons, ht] at hs
  have hlen := congrArg List.length hs
  rw [length_append, length_cons, length_singleton] at hlen
  have h1 : (w.tasks.take i).filterMap g = [] := eq_nil_of_length_eq_zero (by omega)
  have h2 : (w.tasks.drop (i + 1)).filterMap g = [] := eq_nil_of_length_eq_zero (by omega)
  unfold continueAs
  rw [filterMap_append, filterMap_append, h1, h2, append_nil, nil_append]

theorem mem_tokens_of_send {p : Ptr} (h : w.tasks[i]? = some (.send p)) :
    p ∈ w.tokens (w.blockOf p) :=
  mem_filterMap.mpr ⟨_, mem_of_getElem? h, by simp [token]⟩

end Tasks

end Workers

end HDCS
