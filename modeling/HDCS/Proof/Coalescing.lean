import HDCS.Core.DataStoreRequest
import HDCS.Lib.Counting
import Mathlib.Data.List.Nodup
import Mathlib.Data.List.Perm.Basic

/-!
# What `prepare_request` keeps

The loop of `prepare_request` goes over a map that it changes. It carries an
entry along, the block with everything it was joined with so far, and once that
entry is in the map it stays there (`Merge.Carried`): so a block that is handed in
is never lost. The map has no two entries for a block, it grows by one entry at
most, and the loop needs no more rounds than it is given.
-/

namespace HDCS

open SegmentChain

/-! ## The map -/

namespace SegmentChain

variable {x y : Segment} {c : SegmentChain} {b : Nat}

def keys (c : SegmentChain) : List Nat := c.map Segment.block

theorem perm_insert (x : Segment) (c : SegmentChain) : (c.insert x).Perm (x :: c) := by
  induction c with
  | nil => exact List.Perm.refl _
  | cons y c ih =>
    rw [insert]
    split
    · exact List.Perm.refl _
    · exact (ih.cons y).trans (List.Perm.swap x y c)

theorem any_iff : (c.any fun y => y.block == b) = true ↔ b ∈ c.keys := by
  simp [keys, List.any_eq_true]

theorem keys_assign_of_mem (h : x.block ∈ c.keys) : (c.assign x).keys = c.keys := by
  unfold assign
  rw [if_pos (any_iff.mpr h)]
  unfold keys
  rw [List.map_map]
  refine List.map_congr_left fun y _ => ?_
  dsimp only [Function.comp]
  split
  · rename_i hy
    exact hy.symm
  · rfl

theorem perm_assign_of_not_mem (h : x.block ∉ c.keys) : (c.assign x).Perm (x :: c) := by
  unfold assign
  rw [if_neg (mt any_iff.mp h)]
  exact perm_insert x c

theorem keys_assign_perm (h : x.block ∉ c.keys) :
    (c.assign x).keys.Perm (x.block :: c.keys) :=
  (perm_assign_of_not_mem h).map Segment.block

theorem mem_assign_iff : y ∈ c.assign x ↔ y = x ∨ (y ∈ c ∧ y.block ≠ x.block) := by
  by_cases h : x.block ∈ c.keys
  · unfold assign
    rw [if_pos (any_iff.mpr h), List.mem_map]
    constructor
    · intro ⟨z, hz, hzy⟩
      by_cases hb : z.block = x.block
      · rw [if_pos hb] at hzy
        exact .inl hzy.symm
      · rw [if_neg hb] at hzy
        exact .inr (hzy ▸ ⟨hz, hb⟩)
    · intro hy
      rcases hy with rfl | ⟨hy, hb⟩
      · obtain ⟨z, hz, hzx⟩ := List.mem_map.mp h
        exact ⟨z, hz, if_pos hzx⟩
      · exact ⟨y, hy, if_neg hb⟩
  · rw [(perm_assign_of_not_mem h).mem_iff, List.mem_cons]
    exact or_congr_right ⟨fun hy => ⟨hy, fun hb => h (hb ▸ List.mem_map_of_mem hy)⟩, And.left⟩

theorem mem_assign (x : Segment) (c : SegmentChain) : x ∈ c.assign x :=
  mem_assign_iff.mpr (.inl rfl)

theorem nodup_assign (h : c.keys.Nodup) (x : Segment) : (c.assign x).keys.Nodup := by
  by_cases hx : x.block ∈ c.keys
  · rw [keys_assign_of_mem hx]
    exact h
  · exact (keys_assign_perm hx).nodup_iff.mpr (List.nodup_cons.mpr ⟨hx, h⟩)

theorem mem_keys_assign (h : b ∈ (c.assign x).keys) : b = x.block ∨ b ∈ c.keys := by
  by_cases hx : x.block ∈ c.keys
  · rw [keys_assign_of_mem hx] at h
    exact Or.inr h
  · exact List.mem_cons.mp ((keys_assign_perm hx).mem_iff.mp h)

theorem mem_keys_assign_of_mem (h : b ∈ c.keys) (x : Segment) : b ∈ (c.assign x).keys := by
  by_cases hx : x.block ∈ c.keys
  · rw [keys_assign_of_mem hx]
    exact h
  · exact (keys_assign_perm hx).mem_iff.mpr (List.mem_cons_of_mem _ h)

theorem countP_keys_assign_le (p : Nat → Bool) (x : Segment) (c : SegmentChain) :
    (c.assign x).keys.countP p ≤ c.keys.countP p + if x.block ∈ c.keys then 0 else 1 := by
  by_cases hx : x.block ∈ c.keys
  · rw [keys_assign_of_mem hx, if_pos hx]
    exact Nat.le_refl _
  · rw [(keys_assign_perm hx).countP_eq p, List.countP_cons, if_neg hx]
    split
    · exact Nat.le_refl _
    · exact Nat.le_succ _

theorem length_assign_of_mem (h : x.block ∈ c.keys) : (c.assign x).length = c.length := by
  have := congrArg List.length (keys_assign_of_mem h)
  rwa [keys, keys, List.length_map, List.length_map] at this

theorem length_assign_le (x : Segment) (c : SegmentChain) :
    (c.assign x).length ≤ c.length + 1 := by
  by_cases h : x.block ∈ c.keys
  · rw [length_assign_of_mem h]
    exact Nat.le_succ _
  · rw [(perm_assign_of_not_mem h).length_eq]
    exact Nat.le_refl _

theorem mem_erase : y ∈ c.erase b ↔ y ∈ c ∧ y.block ≠ b := by
  simp [erase]

theorem nodup_erase (h : c.keys.Nodup) (b : Nat) : (c.erase b).keys.Nodup :=
  h.sublist (List.filter_sublist.map _)

theorem length_erase_lt (h : b ∈ c.keys) : (c.erase b).length < c.length := by
  obtain ⟨y, hy, rfl⟩ := List.mem_map.mp h
  exact List.length_filter_lt_length_iff_exists.mpr ⟨y, hy, by simp⟩

end SegmentChain

/-! ## The loop -/

namespace Merge

variable {m : Merge} {cur : Segment}

def entry (m : Merge) : Segment := ⟨m.blockId, m.size, m.data⟩

structure Carried (m : Merge) : Prop where
  nodup : m.chain.keys.Nodup
  pos : 0 < m.size
  here : m.inserted = true → m.entry ∈ m.chain
  fresh : m.inserted = false → m.blockId ∉ m.chain.keys

theorem eq_of_block_eq {c : SegmentChain} {x y : Segment} (h : c.keys.Nodup) (hx : x ∈ c)
    (hy : y ∈ c) (hb : x.block = y.block) : x = y :=
  List.inj_on_of_nodup_map h hx hy hb

theorem visit_cases (cur : Segment) (hpos : 0 < m.size) :
    (m.visit cur = m ∧ cur.data + cur.length ≠ m.data ∧ m.data + m.size ≠ cur.data)
    ∨ (cur.data + cur.length = m.data
        ∧ m.visit cur = ⟨m.chain.assign ⟨cur.block, cur.length + m.size, cur.data⟩, cur.block,
            cur.length + m.size, cur.data, true⟩)
    ∨ (m.data + m.size = cur.data ∧ cur.data + cur.length ≠ m.data
        ∧ m.visit cur = ⟨(m.chain.assign ⟨m.blockId, m.size + cur.length, m.data⟩).erase cur.block,
            m.blockId, m.size + cur.length, m.data, true⟩) := by
  unfold visit before after
  by_cases hbefore : cur.data + cur.length = m.data
  · -- joined with the one before it, the entry begins where `cur` did, not behind it
    refine Or.inr (Or.inl ⟨hbefore, ?_⟩)
    simp only [if_pos hbefore]
    rw [if_neg (by omega)]
  · simp only [if_neg hbefore]
    by_cases hafter : m.data + m.size = cur.data
    · rw [if_pos hafter]
      exact Or.inr (Or.inr ⟨hafter, hbefore, rfl⟩)
    · rw [if_neg hafter]
      exact Or.inl ⟨rfl, hbefore, hafter⟩

theorem Carried.block_ne (h : m.Carried) (hcur : cur ∈ m.chain)
    (hjoin : m.data + m.size = cur.data) : m.blockId ≠ cur.block := by
  intro hb
  cases hins : m.inserted with
  | false => exact h.fresh hins (hb ▸ List.mem_map_of_mem hcur)
  -- the carried entry would begin behind its own end
  | true =>
    have heq : m.entry = cur := eq_of_block_eq h.nodup (h.here hins) hcur hb
    have hdata : m.data = cur.data := congrArg Segment.data heq
    have hpos := h.pos
    omega

/-- **What a round keeps.** -/
theorem Carried.visit (h : m.Carried) (hcur : cur ∈ m.chain) : (m.visit cur).Carried := by
  have hpos := h.pos
  rcases visit_cases cur hpos with ⟨heq, _⟩ | ⟨_, heq⟩ | ⟨hjoin, _, heq⟩
  · rw [heq]
    exact h
  · rw [heq]
    exact ⟨nodup_assign h.nodup _, by dsimp only; omega, fun _ => mem_assign _ _, nofun⟩
  · have hne := h.block_ne hcur hjoin
    rw [heq]
    refine ⟨?_, by dsimp only; omega, ?_, nofun⟩
    · exact nodup_erase (nodup_assign h.nodup _) _
    · exact fun _ => mem_erase.mpr ⟨mem_assign _ _, hne⟩

def Within (p : Nat → Prop) (m : Merge) : Prop := p m.blockId ∧ ∀ b ∈ m.chain.keys, p b

theorem Within.visit {p : Nat → Prop} (h : m.Within p) (hpos : 0 < m.size)
    (hcur : cur ∈ m.chain) : (m.visit cur).Within p := by
  have hkey : p cur.block := h.2 _ (List.mem_map_of_mem hcur)
  rcases visit_cases cur hpos with ⟨heq, _⟩ | ⟨_, heq⟩ | ⟨_, _, heq⟩
  · rw [heq]
    exact h
  · rw [heq]
    refine ⟨hkey, fun b hb => ?_⟩
    rcases mem_keys_assign hb with rfl | hb
    · exact hkey
    · exact h.2 b hb
  · rw [heq]
    refine ⟨h.1, fun b hb => ?_⟩
    obtain ⟨y, hy, rfl⟩ := List.mem_map.mp hb
    rcases mem_keys_assign (List.mem_map_of_mem (mem_erase.mp hy).1) with hb | hb
    · rw [hb]
      exact h.1
    · exact h.2 _ hb

theorem Carried.length_visit (h : m.Carried) (hcur : cur ∈ m.chain) :
    (m.visit cur).chain.length ≤ m.chain.length := by
  have hkey : cur.block ∈ m.chain.keys := List.mem_map_of_mem hcur
  rcases visit_cases cur h.pos with ⟨heq, _⟩ | ⟨_, heq⟩ | ⟨hjoin, _, heq⟩
  · rw [heq]
  · rw [heq]
    exact Nat.le_of_eq (length_assign_of_mem hkey)
  · rw [heq]
    have hassign := length_assign_le ⟨m.blockId, m.size + cur.length, m.data⟩ m.chain
    -- one more by the assignment, and one less by the erasure
    have := length_erase_lt (mem_keys_assign_of_mem hkey ⟨m.blockId, m.size + cur.length, m.data⟩)
    dsimp only
    omega

/-- **The loop.** What every round keeps, the loop keeps. -/
theorem loop_invariant {I : Merge → Prop}
    (hvisit : ∀ m cur, I m → cur ∈ m.chain → I (m.visit cur)) :
    ∀ (rounds : Nat) (it : Option Nat) (m : Merge), I m → I (m.loop rounds it)
  | 0, _, _, h => h
  | _ + 1, none, _, h => h
  | rounds + 1, some it, m, h => by
    rw [loop]
    split
    · rename_i cur hcur
      exact loop_invariant hvisit rounds _ _ (hvisit m cur h (List.mem_of_find?_eq_some hcur))
    · exact h

/-! ## How many rounds it takes -/

def left (m : Merge) : Option Nat → Nat
  | none => 0
  | some it => m.chain.keys.countP (fun b => it ≤ b) + if m.blockId ∈ m.chain.keys then 0 else 1

theorem Carried.left_visit (h : m.Carried) (hcur : cur ∈ m.chain) (it : Nat) :
    (m.visit cur).left (some it) ≤ m.left (some it) := by
  have hkey : cur.block ∈ m.chain.keys := List.mem_map_of_mem hcur
  rcases visit_cases cur h.pos with ⟨heq, _⟩ | ⟨_, heq⟩ | ⟨hjoin, _, heq⟩
  · rw [heq]
  · rw [heq]
    unfold left
    dsimp only
    rw [keys_assign_of_mem (x := ⟨cur.block, cur.length + m.size, cur.data⟩) hkey, if_pos hkey]
    omega
  · have hcarried := h.visit hcur
    rw [heq] at hcarried ⊢
    have hmem : m.blockId ∈ ((m.chain.assign ⟨m.blockId, m.size + cur.length, m.data⟩).erase
        cur.block).keys := List.mem_map_of_mem (hcarried.here rfl)
    have hsub : ((m.chain.assign ⟨m.blockId, m.size + cur.length, m.data⟩).erase
        cur.block).keys.Sublist (m.chain.assign ⟨m.blockId, m.size + cur.length, m.data⟩).keys :=
      List.filter_sublist.map _
    -- the carried entry is in the map now, where it was counted as one to come
    unfold left
    dsimp only
    rw [if_pos hmem]
    exact Nat.le_trans (hsub.countP_le (p := fun b => decide (it ≤ b)))
      (countP_keys_assign_le _ ⟨m.blockId, m.size + cur.length, m.data⟩ m.chain)

theorem left_next {it : Nat} (hcur : cur ∈ m.chain) (hit : it ≤ cur.block) :
    m.left (m.chain.next cur.block) < m.left (some it) := by
  have hkey : cur.block ∈ m.chain.keys := List.mem_map_of_mem hcur
  cases hnext : m.chain.next cur.block with
  | none =>
    have : 0 < m.chain.keys.countP fun b => decide (it ≤ b) :=
      List.countP_pos_iff.mpr ⟨cur.block, hkey, decide_eq_true hit⟩
    simp only [left]
    omega
  | some it' =>
    obtain ⟨y, hy, rfl⟩ := Option.map_eq_some_iff.mp hnext
    have hlt : cur.block < y.block := by simpa using List.find?_some hy
    obtain ⟨i, hi⟩ := List.getElem?_of_mem hkey
    have := Lib.countP_lt_of_getElem? (p := fun b => decide (y.block ≤ b))
      (q := fun b => decide (it ≤ b))
      (fun b hb => decide_eq_true (by have := of_decide_eq_true hb; omega)) hi
      (decide_eq_false (by omega)) (decide_eq_true hit)
    simp only [left]
    omega

/-- **The loop ends by itself**, if it is given the rounds it needs. -/
theorem loop_rounds : ∀ (rounds : Nat) (it : Option Nat) (m : Merge), m.Carried →
    m.left it ≤ rounds → m.loop (rounds + 1) it = m.loop rounds it
  | _, none, _, _, _ => by cases ‹Nat› <;> rfl
  | 0, some it, m, h, hleft => by
    rw [loop, show m.loop 0 (some it) = m from rfl]
    split
    · rename_i cur hcur
      have := left_next (List.mem_of_find?_eq_some hcur) (by simpa using List.find?_some hcur)
      omega
    · rfl
  | rounds + 1, some it, m, h, hleft => by
    rw [loop, loop]
    split
    · rename_i cur hcur
      have hmem := List.mem_of_find?_eq_some hcur
      have hlt := left_next hmem (by simpa using List.find?_some hcur)
      refine loop_rounds rounds _ _ (h.visit hmem) ?_
      cases hnext : m.chain.next cur.block with
      | none => exact Nat.zero_le _
      | some it' =>
        have hvisit := h.left_visit hmem it'
        rw [hnext] at hlt
        omega
    · rfl

end Merge

/-! ## `prepare_request` -/

section Prepare

variable {bs blockId data : Nat} {c : SegmentChain}

theorem Merge.carried_start (data : Nat) (hbs : 0 < bs) (hc : c.keys.Nodup)
    (hfresh : blockId ∉ c.keys) : (Merge.mk c blockId bs data false).Carried :=
  ⟨hc, hbs, nofun, fun _ => hfresh⟩

theorem Merge.left_start_le (bs data : Nat) (hfresh : blockId ∉ c.keys) :
    (Merge.mk c blockId bs data false).left (c.head?.map Segment.block) ≤ c.length + 1 := by
  cases hit : c.head?.map Segment.block with
  | none => exact Nat.zero_le _
  | some it =>
    have hle := List.countP_le_length (p := fun b => decide (it ≤ b)) (l := c.keys)
    rw [keys, List.length_map] at hle
    simp only [Merge.left, if_neg hfresh]
    exact Nat.succ_le_succ hle

theorem prepareRequest_rounds (hbs : 0 < bs) (hc : c.keys.Nodup) (hfresh : blockId ∉ c.keys)
    (more : Nat) :
    (Merge.mk c blockId bs data false).loop (c.length + 1 + more) (c.head?.map Segment.block)
      = (Merge.mk c blockId bs data false).loop (c.length + 1) (c.head?.map Segment.block) := by
  have hstart := Merge.carried_start data hbs hc hfresh
  have hleft := Merge.left_start_le bs data hfresh
  induction more with
  | zero => rfl
  | succ more ih =>
    rw [← ih]
    exact Merge.loop_rounds _ _ _ hstart (Nat.le_add_right_of_le hleft)

theorem prepareRequest_spec (data : Nat) (hbs : 0 < bs) (hc : c.keys.Nodup)
    (hfresh : blockId ∉ c.keys) :
    prepareRequest bs blockId data c ≠ [] ∧ (prepareRequest bs blockId data c).keys.Nodup
      ∧ (∀ b ∈ (prepareRequest bs blockId data c).keys, b = blockId ∨ b ∈ c.keys)
      ∧ (prepareRequest bs blockId data c).length ≤ c.length + 1 := by
  have hstart := Merge.carried_start data hbs hc hfresh
  obtain ⟨hcarried, hwithin, hlen⟩ := Merge.loop_invariant
    (I := fun m => m.Carried ∧ m.Within (fun b => b = blockId ∨ b ∈ c.keys)
      ∧ m.chain.length ≤ c.length)
    (fun m cur h hcur => ⟨h.1.visit hcur, h.2.1.visit h.1.pos hcur,
      Nat.le_trans (h.1.length_visit hcur) h.2.2⟩)
    (c.length + 1) (c.head?.map Segment.block) _
    ⟨hstart, ⟨Or.inl rfl, fun b hb => Or.inr hb⟩, Nat.le_refl _⟩
  unfold prepareRequest
  dsimp only
  split
  · rename_i hins
    exact ⟨List.ne_nil_of_mem (hcarried.here hins), hcarried.nodup, hwithin.2, by omega⟩
  · refine ⟨List.ne_nil_of_mem (mem_assign _ _), nodup_assign hcarried.nodup _, fun b hb => ?_, ?_⟩
    · rcases mem_keys_assign hb with rfl | hb
      · exact hwithin.1
      · exact hwithin.2 b hb
    · exact Nat.le_trans (length_assign_le _ _) (by omega)

end Prepare

end HDCS
