import HDCS.Proof.PartialWrite

/-!
# A flush that fails

`FlushBlockToBackend` reads a dirty block from the cache into a buffer and writes the buffer to the
backend, and the result of the read is lost: the write comes next whatever it was, and `ret` is that
of the write. If the read has failed and the write does not, the buffer is in the backend as it
happened to be, the chain goes on, and FLUSH marks the block as flushed while DEMOTE_CACHE drops it.

Nobody compares the results with the size of a block either, so a call that has moved less counts as
a good one.

Nothing of that happens if the read is good or the write fails too and leaves the backend alone, and
if calls that are both good have moved what matters; in no other case is the operation what it
should be (`flushBlock_safe_iff`).
-/

namespace HDCS.Proof

open Lib CachePolicy List

variable {n : Nat} {cfg : CacheConfig}

def MarkedOrDropped (b : Nat) (e : Fin n) (s s' : CacheState n) : Prop :=
  s'.blockMeta b ≠ s.blockMeta b ∨ (s'.entries e).status ≠ (s.entries e).status
    ∨ s'.entry b ≠ s.entry b

def SavedFrom (cfg : CacheConfig) (b id : Nat) (s s' : CacheState n) : Prop :=
  block cfg.blockSize b s'.backData = block cfg.blockSize id s.cacheData

/-- What a flush of a dirty block owes: the backend changes only if the read was good, a failure is
reported, and the chains of FLUSH and DEMOTE_CACHE, however far they have got, have not marked or
dropped a block that was not saved. -/
structure FlushSafe (cfg : CacheConfig) (req : BlockRequest cfg.blockSize) (o : FlushOutcome)
    (id : UInt32) (e : Fin n) (comp : Option TimeoutComp) (x : Bufs × CacheState n) : Prop where
  backend : (sendFlushBlock cfg req o id.toNat e .dataPtr x).2.2.backData ≠ x.2.backData →
    0 ≤ o.readRet
  reported : o.readRet < 0 ∨ o.writeRet < 0 → (sendFlushBlock cfg req o id.toNat e .dataPtr x).1 < 0
  kept : ∀ ops ∈ [flush e id comp, demote e id comp], ∀ k,
    MarkedOrDropped req.block e x.2 (sendOps cfg req o k ops x).2 →
      SavedFrom cfg req.block id.toNat x.2 (sendOps cfg req o k ops x).2

/-- Byte `i` was read and written, or what a shorter call left there is the byte of the slot. -/
def MovedByte (cfg : CacheConfig) (req : BlockRequest cfg.blockSize) (o : FlushOutcome) (id : Nat)
    (d : Buf) (x : Bufs × CacheState n) (i : Nat) : Prop :=
  if i < o.writeMoved then
    i < o.readMoved ∨ x.1.get d i = x.2.cacheData (id * cfg.blockSize + i)
  else x.2.backData (req.block * cfg.blockSize + i) = x.2.cacheData (id * cfg.blockSize + i)

/-! ## The operation -/

section Operation

variable {req : BlockRequest cfg.blockSize} {o : FlushOutcome} {id : Nat} {e : Fin n} {d : Buf}
  {x : Bufs × CacheState n}

/-- If both calls move a block, the operation is the one of a run without failures. -/
theorem sendFlushBlock_good (hread : 0 ≤ o.readRet) (hwrite : 0 ≤ o.writeRet)
    (hmoved : cfg.blockSize ≤ o.readMoved ∧ cfg.blockSize ≤ o.writeMoved) :
    (sendFlushBlock cfg req o id e d x).2 = send cfg req (.flushBlockToBackend id e d) x := by
  unfold sendFlushBlock send
  dsimp only
  rw [if_pos hread, if_pos hwrite, Nat.min_eq_right hmoved.1, Nat.min_eq_right hmoved.2]
  split_ifs
  · cases d <;> rfl
  · rfl

theorem sendFlushBlock_ret (hdirty : (x.2.entries e).status = promotedUnflushed) :
    (sendFlushBlock cfg req o id e d x).1 = o.writeRet := by
  unfold sendFlushBlock
  dsimp only
  rw [if_pos hdirty]

variable (cfg req o id e d x) in
theorem sendFlushBlock_frame : ∃ back,
    (sendFlushBlock cfg req o id e d x).2.2 = { x.2 with backData := back } := by
  unfold sendFlushBlock
  dsimp only
  by_cases hdirty : (x.2.entries e).status = promotedUnflushed
  · rw [if_pos hdirty]
    exact ⟨_, rfl⟩
  · rw [if_neg hdirty]
    exact ⟨x.2.backData, rfl⟩

theorem memcpy_eq_iff {back left : Bytes} {off size : Nat} :
    memcpy back off left 0 size = back ↔ ∀ i < size, left i = back (off + i) := by
  constructor
  · intro heq i hi
    rw [← heq, memcpy_of_mem (by omega) (by omega)]
    congr 1
    omega
  · intro hsame
    funext i
    by_cases hi : off ≤ i ∧ i < off + size
    · rw [memcpy_of_mem hi.1 hi.2, Nat.zero_add, hsame _ (by omega), Nat.add_sub_cancel' hi.1]
    · rw [memcpy_of_not_mem hi]

/-- **When a block that was read and written has been saved.** -/
theorem sendFlushBlock_saved (hdirty : (x.2.entries e).status = promotedUnflushed)
    (hread : 0 ≤ o.readRet) (hwrite : 0 ≤ o.writeRet) :
    SavedFrom cfg req.block id x.2 (sendFlushBlock cfg req o id e d x).2.2
      ↔ ∀ i < cfg.blockSize, MovedByte cfg req o id d x i := by
  unfold SavedFrom sendFlushBlock
  dsimp only
  rw [if_pos hdirty, if_pos hread, if_pos hwrite]
  -- byte by byte: moved twice, or only written, or left alone
  have hbyte : ∀ i < cfg.blockSize,
      block cfg.blockSize req.block (memcpy x.2.backData (req.block * cfg.blockSize)
        (memcpy (x.1.get d) 0 x.2.cacheData (id * cfg.blockSize) (min o.readMoved cfg.blockSize)) 0
        (min o.writeMoved cfg.blockSize)) i
      = if i < o.writeMoved then
          if i < o.readMoved then x.2.cacheData (id * cfg.blockSize + i) else x.1.get d i
        else x.2.backData (req.block * cfg.blockSize + i) := by
    intro i hi
    rw [block_of_lt hi]
    split_ifs with hw hr
    · rw [memcpy_of_mem (by omega) (by omega), memcpy_of_mem (by omega) (by omega)]
      congr 1
      omega
    · rw [memcpy_of_mem (by omega) (by omega), memcpy_of_not_mem (by omega)]
      congr 1
      omega
    · rw [memcpy_of_not_mem (by omega)]
  constructor
  · intro heq i hi
    have h := congrFun heq i
    rw [hbyte i hi, block_of_lt hi] at h
    unfold MovedByte
    split_ifs at h ⊢ <;> simp_all
  · intro hmoved
    funext i
    by_cases hi : i < cfg.blockSize
    · rw [hbyte i hi, block_of_lt hi]
      have h := hmoved i hi
      unfold MovedByte at h
      split_ifs at h ⊢ <;> simp_all
    · rw [clipped_block _ _ _ i (not_lt.mp hi), clipped_block _ _ _ i (not_lt.mp hi)]

end Operation

/-! ## The chains -/

section Chain

variable {req : BlockRequest cfg.blockSize} {o : FlushOutcome} {id : UInt32} {e : Fin n}
  {comp : Option TimeoutComp} {x : Bufs × CacheState n}

theorem sendOps_backData {ops : List (BlockOp n)}
    (hops : ∀ op ∈ ops, ∀ x, (sendOp cfg req o op x).2.2.backData = x.2.backData) (k : Nat)
    (x : Bufs × CacheState n) : (sendOps cfg req o k ops x).2.backData = x.2.backData := by
  induction ops generalizing k x with
  | nil => cases k <;> rfl
  | cons op ops ih =>
    cases k with
    | zero => rfl
    | succ k =>
      have hop := hops op mem_cons_self x
      unfold sendOps
      dsimp only
      split_ifs
      · exact hop
      · rw [ih (fun op' h => hops op' (mem_cons_of_mem _ h)) k, hop]

theorem sendOp_updateLRU_backData (status : Option (Fin n)) (x : Bufs × CacheState n) :
    (sendOp cfg req o (.updateLRU status e comp) x).2.2.backData = x.2.backData := by
  cases status with
  | none => rfl
  | some e' => exact (sendUpdateLRU_frame cfg req.block e' e comp x.2).backData

theorem backData_of_rest {ops : List (BlockOp n)}
    (hops : ops = [.updateCacheMeta (some e) flushed id, .updateLRU (some e) e comp]
      ∨ ops = dropEntry e id comp) (k : Nat) :
    (sendOps cfg req o k ops x).2.backData = x.2.backData := by
  refine sendOps_backData (fun op hop x => ?_) k x
  rcases hops with rfl | rfl
  · simp only [mem_cons, not_mem_nil, or_false] at hop
    rcases hop with rfl | rfl
    · rfl
    · exact sendOp_updateLRU_backData _ x
  · simp only [dropEntry, mem_cons, not_mem_nil, or_false] at hop
    rcases hop with rfl | rfl | rfl | rfl | rfl
    · rfl
    · rfl
    · rfl
    · exact sendOp_updateLRU_backData _ x
    · rfl

theorem saved_of_marked {ops rest : List (BlockOp n)}
    (hops : ops = .flushBlockToBackend id.toNat e .dataPtr :: rest)
    (hrest : rest = [.updateCacheMeta (some e) flushed id, .updateLRU (some e) e comp]
      ∨ rest = dropEntry e id comp)
    (hdirty : (x.2.entries e).status = promotedUnflushed)
    (hgood : 0 ≤ o.writeRet → 0 ≤ o.readRet
      ∧ ∀ i < cfg.blockSize, MovedByte cfg req o id.toNat .dataPtr x i) (k : Nat)
    (hmarked : MarkedOrDropped req.block e x.2 (sendOps cfg req o k ops x).2) :
    SavedFrom cfg req.block id.toNat x.2 (sendOps cfg req o k ops x).2 := by
  have hunmarked : ∀ back, ¬ MarkedOrDropped req.block e x.2 { x.2 with backData := back } := by
    rintro back (h | h | h) <;> exact h rfl
  cases k with
  | zero => exact absurd hmarked (hunmarked x.2.backData)
  | succ k =>
    subst hops
    unfold sendOps at hmarked ⊢
    dsimp only [sendOp] at hmarked ⊢
    rw [sendFlushBlock_ret hdirty] at hmarked ⊢
    by_cases hwrite : o.writeRet < 0
    · -- the chain has ended with the flush
      rw [if_pos hwrite] at hmarked
      obtain ⟨back, hback⟩ := sendFlushBlock_frame cfg req o id.toNat e .dataPtr x
      rw [hback] at hmarked
      exact absurd hmarked (hunmarked back)
    · have hwrite := not_lt.mp hwrite
      rw [if_neg (not_lt.mpr hwrite)]
      unfold SavedFrom
      rw [backData_of_rest hrest k]
      exact (sendFlushBlock_saved hdirty (hgood hwrite).1 hwrite).mpr (hgood hwrite).2

theorem moved_of_kept (hdirty : (x.2.entries e).status = promotedUnflushed)
    (hread : 0 ≤ o.readRet) (hwrite : 0 ≤ o.writeRet)
    (hkept : ∀ k, MarkedOrDropped req.block e x.2 (sendOps cfg req o k (flush e id comp) x).2 →
      SavedFrom cfg req.block id.toNat x.2 (sendOps cfg req o k (flush e id comp) x).2) :
    ∀ i < cfg.blockSize, MovedByte cfg req o id.toNat .dataPtr x i := by
  refine (sendFlushBlock_saved hdirty hread hwrite).mp ?_
  have hret : ¬ (sendFlushBlock cfg req o id.toNat e .dataPtr x).1 < 0 := by
    rw [sendFlushBlock_ret hdirty]
    exact not_lt.mpr hwrite
  -- after the second operation of the chain the status is another one
  have htwo : sendOps cfg req o 2 (flush e id comp) x = send cfg req
      (.updateCacheMeta (some e) flushed id) (sendFlushBlock cfg req o id.toNat e .dataPtr x).2 :=
    if_neg hret
  have hsaved := hkept 2
  rw [htwo] at hsaved
  refine hsaved (Or.inr (Or.inl ?_))
  rw [hdirty]
  simp [send, sendUpdateCacheMeta, setMeta, setStatus, flushed, promotedUnflushed]

end Chain

/--
**What a flush owes it does if the read is good, or nothing was written, and if two good calls have
moved the block**, and in no other case: a bad read is not reported by the write that comes after
it, and a short one is not seen.
-/
theorem flushBlock_safe_iff (cfg : CacheConfig) (req : BlockRequest cfg.blockSize)
    (o : FlushOutcome) (id : UInt32) (e : Fin n) (comp : Option TimeoutComp)
    (x : Bufs × CacheState n) (hdirty : (x.2.entries e).status = promotedUnflushed) :
    FlushSafe cfg req o id e comp x ↔
      (0 ≤ o.readRet ∨ o.writeRet < 0 ∧ ∀ i < cfg.blockSize,
        o.writeLeft i = x.2.backData (req.block * cfg.blockSize + i))
      ∧ (0 ≤ o.readRet → 0 ≤ o.writeRet →
        ∀ i < cfg.blockSize, MovedByte cfg req o id.toNat .dataPtr x i) := by
  have hback : o.writeRet < 0 → (sendFlushBlock cfg req o id.toNat e .dataPtr x).2.2.backData
      = memcpy x.2.backData (req.block * cfg.blockSize) o.writeLeft 0 cfg.blockSize := by
    intro hwrite
    unfold sendFlushBlock
    dsimp only
    rw [if_pos hdirty, if_neg (not_le.mpr hwrite)]
  constructor
  · intro h
    refine ⟨?_, fun hread hwrite => moved_of_kept hdirty hread hwrite fun k =>
      h.kept (flush e id comp) mem_cons_self k⟩
    by_cases hread : 0 ≤ o.readRet
    · exact Or.inl hread
    · have hreported := h.reported (Or.inl (not_le.mp hread))
      rw [sendFlushBlock_ret hdirty] at hreported
      have hsame := not_not.mp fun hne => hread (h.backend hne)
      rw [hback hreported] at hsame
      exact Or.inr ⟨hreported, memcpy_eq_iff.mp hsame⟩
  · rintro ⟨h, hmoved⟩
    refine ⟨fun hne => h.resolve_right fun ⟨hwrite, hsame⟩ => hne ?_, fun hfail => ?_,
      fun ops hops k => ?_⟩
    · rw [hback hwrite]
      exact memcpy_eq_iff.mpr hsame
    · rw [sendFlushBlock_ret hdirty]
      rcases h with hread | ⟨hwrite, _⟩
      · exact hfail.resolve_left (not_lt.mpr hread)
      · exact hwrite
    · have hgood : 0 ≤ o.writeRet → 0 ≤ o.readRet
          ∧ ∀ i < cfg.blockSize, MovedByte cfg req o id.toNat .dataPtr x i := fun hwrite =>
        have hread := h.resolve_right fun h' => absurd h'.1 (not_lt.mpr hwrite)
        ⟨hread, hmoved hread hwrite⟩
      simp only [mem_cons, not_mem_nil, or_false] at hops
      rcases hops with rfl | rfl
      · exact saved_of_marked rfl (Or.inl rfl) hdirty hgood k
      · exact saved_of_marked rfl (Or.inr rfl) hdirty hgood k

/-! ## A run -/

/-- Block 0 has been written with 9; the backend has 5. -/
def smallDirty : Bufs × CacheState (smallCache 0 .writeBack).entriesCount :=
  (⟨fun _ => 0, fun _ => 0⟩, served (smallCache 0 .writeBack) (wholeRequest .write 0 9)
    (fun _ => 0) (fresh (smallCache 0 .writeBack) (fun _ => 0) fun _ => 5))

/-- A flush whose write fails, with half of the block written, and one that moves the block. -/
theorem flushBlock_safe_halfway :
    FlushSafe (smallCache 0 .writeBack) (wholeRequest .flush 0 0)
      ⟨2, 2, fun _ => 0, -1, 0, fun i => if i = 0 then 9 else 5⟩ 0 onlyEntry none smallDirty
    ∧ FlushSafe (smallCache 0 .writeBack) (wholeRequest .flush 0 0)
      ⟨2, 2, fun _ => 0, 2, 2, fun _ => 0⟩ 0 onlyEntry none smallDirty := by
  constructor
  · refine (flushBlock_safe_iff _ _ _ _ _ _ _ (by decide +kernel)).mpr ⟨Or.inl (by decide), ?_⟩
    exact fun _ hwrite => absurd hwrite (by decide)
  · refine (flushBlock_safe_iff _ _ _ _ _ _ _ (by decide +kernel)).mpr ⟨Or.inl (by decide), ?_⟩
    intro _ _ i hi
    have hi : i < 2 := hi
    unfold MovedByte
    rw [if_pos hi]
    exact Or.inl hi

/--
A flush whose read fails and whose write does not: the buffer is in the backend, FLUSH marks the
block as flushed, and DEMOTE_CACHE drops it with the only copy of its data. And one that writes half
of the block: FLUSH marks it too.
-/
theorem flushBlock_loses :
    let o : FlushOutcome := ⟨-1, 0, fun _ => 0, 2, 2, fun _ => 0⟩
    let short : FlushOutcome := ⟨2, 2, fun _ => 0, 1, 1, fun _ => 0⟩
    let flushed' := (sendOps (smallCache 0 .writeBack) (wholeRequest .flush 0 0) o 3
      (flush onlyEntry 0 none) smallDirty).2
    let demoted := (sendOps (smallCache 0 .writeBack) (wholeRequest .demoteCache 0 0) o 6
      (demote onlyEntry 0 none) smallDirty).2
    let half := (sendOps (smallCache 0 .writeBack) (wholeRequest .flush 0 0) short 3
      (flush onlyEntry 0 none) smallDirty).2
    (smallDirty.2.cacheData 0, smallDirty.2.backData 0) = (9, 5)
      ∧ (flushed'.backData 0, flushed'.blockMeta 0) = (0, flushed)
      ∧ (demoted.backData 0, demoted.blockMeta 0, demoted.entry 0, demoted.cacheData 0)
          = (0, unpromoted, none, 0)
      ∧ ¬ FlushSafe (smallCache 0 .writeBack) (wholeRequest .flush 0 0) o 0 onlyEntry none
          smallDirty
      ∧ (half.cacheData 1, half.backData 1, half.blockMeta 0) = (9, 5, flushed) := by
  refine ⟨by decide +kernel, by decide +kernel, by decide +kernel, fun h => ?_, by decide +kernel⟩
  have hret := h.reported (Or.inl (by decide))
  cases hret

end HDCS.Proof
