import HDCS.Core.Serial

/-!
# One block and one slot

Whatever the other blocks are doing, an operation of a chain of block `b` can
only reach a handful of things: `b`'s bytes on the backend, its metadata word,
its place in the two LRU lists, and the bytes and status of the one slot the
chain was built over. A `Cell` is exactly that, and `Cell.send` is `send` seen
from there.

Two facts connect the levels. On its own cell an operation does what `Cell.send`
says (`send_cell`), and on every other cell it does nothing (`send_shows_other`,
`send_slot_other`). What it does outside of cells, to `block->entry`,
`in_discard_process` and `free_lru`, is read off the operation
(`send_entry`, `send_inDiscardProcess`, `send_freeLru`).
-/

namespace HDCS.Proof

open Lib LruList CachePolicy Function CachePolicy

variable {n : Nat}

structure Cell where
  /-- The bytes of the slot. -/
  slot : Bytes
  /-- `entry->status` of the slot. -/
  status : BlockStatus
  /-- The block's bytes on the backend. -/
  back : Bytes
  /-- The block's metadata word. -/
  word : BlockStatus
  /-- Whether the block is in `clean_lru`. -/
  clean : Bool
  /-- Whether the block is in `dirty_lru`. -/
  dirty : Bool

def Cell.send (cfg : CacheConfig) (req : BlockRequest cfg.blockSize) (op : BlockOp n)
    (x : Bufs × Cell) : Bufs × Cell :=
  let m := x.1
  let v := x.2
  let bs := cfg.blockSize
  match op with
  | .readFromBuffer =>
    (m.set .dataPtr (memcpy m.dataPtr 0 m.blockBuffer req.offset req.size), v)
  | .writeToBuffer =>
    (m.set .blockBuffer (memcpy m.blockBuffer req.offset m.dataPtr 0 req.size), v)
  | .promoteBlockFromBackend d => (m.set d (memcpy (m.get d) 0 v.back 0 bs), v)
  | .promoteFromBackend d => (m.set d (memcpy (m.get d) 0 v.back req.offset req.size), v)
  | .writeToBackend d => (m, { v with back := memcpy v.back req.offset (m.get d) 0 req.size })
  | .readBlockFromCache _ d => (m.set d (memcpy (m.get d) 0 v.slot 0 bs), v)
  | .writeBlockToCache _ d => (m, { v with slot := memcpy v.slot 0 (m.get d) 0 bs })
  | .demoteBlockToCache _ => (m, { v with slot := memcpy v.slot 0 (cfg.cacheDiscard v.slot) 0 bs })
  | .discardBlockToBackend =>
    (m, { v with back := memcpy v.back 0 (cfg.backDiscard v.back) 0 bs })
  | .updateCacheMeta (some _) x id => (m, { v with status := x, word := x ||| id })
  | .updateCacheMeta none x _ => (m, { v with word := x })
  | .updateLRU none _ _ => (m, { v with clean := false, dirty := false })
  | .updateLRU (some _) _ _ =>
    if v.status = promotedUnflushed then (m, { v with clean := false, dirty := true })
    else (m, { v with clean := true, dirty := false })
  | .resetCacheEntry _ => (m, { v with status := unpromoted })
  | .flushBlockToBackend _ _ d =>
    if v.status = promotedUnflushed then
      let m := m.set d (memcpy (m.get d) 0 v.slot 0 bs)
      (m, { v with back := memcpy v.back 0 (m.get d) 0 bs })
    else (m, v)
  | .updateTierMeta x _ => (m, { v with status := x, word := x })
  | _ => (m, v)

structure Shows (cfg : CacheConfig) (s : CacheState n) (b : Nat) (v : Cell) : Prop where
  back : block cfg.blockSize b s.backData = v.back
  word : s.blockMeta b = v.word
  clean : b ∈ s.cleanLru ↔ v.clean = true
  dirty : b ∈ s.dirtyLru ↔ v.dirty = true

structure Slot (cfg : CacheConfig) (s : CacheState n) (e : Fin n) (v : Cell) : Prop where
  status : (s.entries e).status = v.status
  bytes : block cfg.blockSize (s.entries e).entryId.toNat s.cacheData = v.slot

def Uses (ids : Fin n → UInt32) (o : Option (Fin n)) : BlockOp n → Prop
  | .readBlockFromCache i _ => ∃ e ∈ o, i = (ids e).toNat
  | .writeBlockToCache i _ => ∃ e ∈ o, i = (ids e).toNat
  | .demoteBlockToCache i => ∃ e ∈ o, i = (ids e).toNat
  | .updateCacheMeta (some e) _ i => e ∈ o ∧ i = ids e
  | .updateCacheMeta none _ i => i = 0
  | .updateLRU st e _ => e ∈ o ∧ (st = none ∨ st = some e)
  | .resetCacheEntry e => e ∈ o
  | .flushBlockToBackend i e _ => e ∈ o ∧ i = (ids e).toNat
  | .updateTierMeta _ _ => False
  | .executeDataStoreRequest _ _ => False
  | _ => True

def frees : BlockOp n → Option (Fin n)
  | .updateLRU none e _ => some e
  | _ => none

def resets : BlockOp n → Option (Fin n)
  | .resetCacheEntry e => some e
  | _ => none

def releases : BlockOp n → Bool
  | .releaseDiscardBlock => true
  | _ => false

structure ListsNodup (s : CacheState n) : Prop where
  free : s.freeLru.Nodup
  clean : s.cleanLru.Nodup
  dirty : s.dirtyLru.Nodup

/-! ## The fields of the small updates -/

section Fields

variable (s : CacheState n) (e k : Fin n) (c : Option TimeoutComp) (x : BlockStatus)

@[simp] theorem setTimeoutComp_status :
    ((setTimeoutComp e c s).entries k).status = (s.entries k).status := by
  unfold setTimeoutComp
  by_cases h : k = e
  · subst h; simp
  · simp [h]

@[simp] theorem setTimeoutComp_entryId :
    ((setTimeoutComp e c s).entries k).entryId = (s.entries k).entryId := by
  unfold setTimeoutComp
  by_cases h : k = e
  · subst h; simp
  · simp [h]

@[simp] theorem setStatus_status_self : ((setStatus e x s).entries e).status = x := by
  simp [setStatus]

theorem setStatus_status_of_ne (h : k ≠ e) :
    ((setStatus e x s).entries k).status = (s.entries k).status := by
  simp [setStatus, h]

@[simp] theorem setStatus_entryId :
    ((setStatus e x s).entries k).entryId = (s.entries k).entryId := by
  unfold setStatus
  by_cases h : k = e
  · subst h; simp
  · simp [h]

end Fields

/-! ## Refreshing a block's place in the lists -/

structure LruFrame (s s' : CacheState n) : Prop where
  entry : s'.entry = s.entry
  inDiscardProcess : s'.inDiscardProcess = s.inDiscardProcess
  freeLru : s'.freeLru = s.freeLru
  cacheData : s'.cacheData = s.cacheData
  backData : s'.backData = s.backData
  blockMeta : s'.blockMeta = s.blockMeta
  status : ∀ k, (s'.entries k).status = (s.entries k).status
  entryId : ∀ k, (s'.entries k).entryId = (s.entries k).entryId

theorem sendUpdateLRU_frame (cfg : CacheConfig) (b : Nat) (e k : Fin n) (c : Option TimeoutComp)
    (s : CacheState n) : LruFrame s (sendUpdateLRU cfg b (some e) k c s) := by
  unfold sendUpdateLRU addTimeout
  dsimp only
  split
  · split
    · exact ⟨rfl, rfl, rfl, rfl, rfl, rfl, by simp [cancelTimeout], by simp [cancelTimeout]⟩
    · exact ⟨rfl, rfl, rfl, rfl, rfl, rfl, by simp [cancelTimeout], by simp [cancelTimeout]⟩
  · exact ⟨rfl, rfl, rfl, rfl, rfl, rfl, by simp [cancelTimeout], by simp [cancelTimeout]⟩

theorem sendUpdateLRU_lists (cfg : CacheConfig) (b : Nat) (e k : Fin n) (c : Option TimeoutComp)
    (s : CacheState n) :
    ((s.entries e).status = promotedUnflushed
        ∧ (sendUpdateLRU cfg b (some e) k c s).cleanLru = remove b s.cleanLru
        ∧ (sendUpdateLRU cfg b (some e) k c s).dirtyLru = touchKey b s.dirtyLru)
    ∨ ((s.entries e).status ≠ promotedUnflushed
        ∧ (sendUpdateLRU cfg b (some e) k c s).cleanLru = touchKey b s.cleanLru
        ∧ (sendUpdateLRU cfg b (some e) k c s).dirtyLru = remove b s.dirtyLru) := by
  unfold sendUpdateLRU addTimeout
  dsimp only
  split
  · rename_i h
    refine Or.inl ⟨h, ?_⟩
    split <;> exact ⟨rfl, rfl⟩
  · rename_i h
    exact Or.inr ⟨h, rfl, rfl⟩

/-! ## What an operation does outside of cells -/

section Outside

variable {cfg : CacheConfig} {req : BlockRequest cfg.blockSize} {op : BlockOp n} {m : Bufs}
  {s : CacheState n}

theorem send_entryId (k : Fin n) :
    ((send cfg req op (m, s)).2.entries k).entryId = (s.entries k).entryId := by
  cases op with
  | updateCacheMeta st x id => cases st <;> simp [send, sendUpdateCacheMeta, setMeta]
  | updateLRU st e c =>
    cases st with
    | none => rfl
    | some e' => exact (sendUpdateLRU_frame cfg _ e' e c s).entryId k
  | resetCacheEntry e => simp [send]
  | flushBlockToBackend id e d => simp only [send]; split <;> rfl
  | updateTierMeta x e => simp [send, setMeta]
  | _ => rfl

theorem send_entry : (send cfg req op (m, s)).2.entry
    = if (resets op).isSome then update s.entry req.block none else s.entry := by
  cases op with
  | updateCacheMeta st x id => cases st <;> rfl
  | updateLRU st e c =>
    cases st with
    | none => rfl
    | some e' => exact (sendUpdateLRU_frame cfg _ e' e c s).entry
  | flushBlockToBackend id e d => simp only [send]; split <;> rfl
  | _ => rfl

theorem send_inDiscardProcess : (send cfg req op (m, s)).2.inDiscardProcess
    = if releases op then update s.inDiscardProcess req.block false
      else s.inDiscardProcess := by
  cases op with
  | updateCacheMeta st x id => cases st <;> rfl
  | updateLRU st e c =>
    cases st with
    | none => rfl
    | some e' => exact (sendUpdateLRU_frame cfg _ e' e c s).inDiscardProcess
  | flushBlockToBackend id e d => simp only [send]; split <;> rfl
  | _ => rfl

theorem send_freeLru : (send cfg req op (m, s)).2.freeLru
    = match frees op with
      | some e => touchKey e s.freeLru
      | none => s.freeLru := by
  cases op with
  | updateCacheMeta st x id => cases st <;> rfl
  | updateLRU st e c =>
    cases st with
    | none => rfl
    | some e' => exact (sendUpdateLRU_frame cfg _ e' e c s).freeLru
  | flushBlockToBackend id e d => simp only [send]; split <;> rfl
  | _ => rfl

theorem send_nodup (h : ListsNodup s) : ListsNodup (send cfg req op (m, s)).2 := by
  cases op with
  | updateCacheMeta st x id => cases st <;> exact ⟨h.free, h.clean, h.dirty⟩
  | updateLRU st e c =>
    cases st with
    | none => exact ⟨nodup_touchKey h.free, nodup_remove h.clean, nodup_remove h.dirty⟩
    | some e' =>
      have hf := (sendUpdateLRU_frame cfg req.block e' e c s).freeLru
      refine ⟨?_, ?_, ?_⟩
      · simp only [send]; rw [hf]; exact h.free
      · simp only [send]
        rcases sendUpdateLRU_lists cfg req.block e' e c s with ⟨_, hc, _⟩ | ⟨_, hc, _⟩
        · rw [hc]; exact nodup_remove h.clean
        · rw [hc]; exact nodup_touchKey h.clean
      · simp only [send]
        rcases sendUpdateLRU_lists cfg req.block e' e c s with ⟨_, _, hd⟩ | ⟨_, _, hd⟩
        · rw [hd]; exact nodup_touchKey h.dirty
        · rw [hd]; exact nodup_remove h.dirty
  | flushBlockToBackend id e d =>
    simp only [send]; split <;> exact ⟨h.free, h.clean, h.dirty⟩
  | _ => exact ⟨h.free, h.clean, h.dirty⟩

end Outside

/-! ## What an operation does to its own cell -/

theorem sendUpdateLRU_cell {cfg : CacheConfig} {req : BlockRequest cfg.blockSize} {m : Bufs}
    {s : CacheState n} {v : Cell} {e : Fin n} {c : Option TimeoutComp} (hn : ListsNodup s)
    (hv : Shows cfg s req.block v) (he : Slot cfg s e v) :
    Shows cfg (sendUpdateLRU cfg req.block (some e) e c s) req.block
        (Cell.send cfg req (.updateLRU (some e) e c) (m, v)).2
      ∧ ∀ k, Slot cfg s k v → Slot cfg (sendUpdateLRU cfg req.block (some e) e c s) k
          (Cell.send cfg req (.updateLRU (some e) e c) (m, v)).2 := by
  have hf := sendUpdateLRU_frame cfg req.block e e c s
  have hback : block cfg.blockSize req.block
      (sendUpdateLRU cfg req.block (some e) e c s).backData = v.back := by
    rw [hf.backData]; exact hv.back
  have hword : (sendUpdateLRU cfg req.block (some e) e c s).blockMeta req.block = v.word := by
    rw [hf.blockMeta]; exact hv.word
  have hslot : ∀ k, Slot cfg s k v →
      Slot cfg (sendUpdateLRU cfg req.block (some e) e c s) k v := by
    intro k hk
    refine ⟨by rw [hf.status]; exact hk.status, ?_⟩
    rw [hf.entryId, hf.cacheData]; exact hk.bytes
  simp only [Cell.send]
  rcases sendUpdateLRU_lists cfg req.block e e c s with ⟨h, hc, hd⟩ | ⟨h, hc, hd⟩
  · rw [if_pos (he.status ▸ h)]
    refine ⟨⟨hback, hword, ?_, ?_⟩, fun k hk => ⟨(hslot k hk).status, (hslot k hk).bytes⟩⟩
    · rw [hc]; simp [mem_remove hn.clean]
    · rw [hd]; simp
  · rw [if_neg (he.status ▸ h)]
    refine ⟨⟨hback, hword, ?_, ?_⟩, fun k hk => ⟨(hslot k hk).status, (hslot k hk).bytes⟩⟩
    · rw [hc]; simp
    · rw [hd]; simp [mem_remove hn.dirty]

theorem send_cell {cfg : CacheConfig} {req : BlockRequest cfg.blockSize} {op : BlockOp n}
    {m : Bufs} {s : CacheState n} {v : Cell} {ids : Fin n → UInt32} {o : Option (Fin n)}
    (hu : Uses ids o op) (hids : ∀ k, (s.entries k).entryId = ids k) (hn : ListsNodup s)
    (hv : Shows cfg s req.block v) (hs : ∀ e ∈ o, Slot cfg s e v) :
    (send cfg req op (m, s)).1 = (Cell.send cfg req op (m, v)).1
      ∧ Shows cfg (send cfg req op (m, s)).2 req.block (Cell.send cfg req op (m, v)).2
      ∧ ∀ e ∈ o, Slot cfg (send cfg req op (m, s)).2 e
          (Cell.send cfg req op (m, v)).2 := by
  have hread : ∀ e ∈ o, ∀ dst : Bytes,
      memcpy dst 0 s.cacheData ((ids e).toNat * cfg.blockSize) cfg.blockSize
        = memcpy dst 0 v.slot 0 cfg.blockSize := by
    intro e he dst
    rw [← (hs e he).bytes, hids e, memcpy_block_src (by omega)]; rfl
  have hback : ∀ dst : Bytes, ∀ off size, off + size ≤ cfg.blockSize →
      memcpy dst 0 s.backData (req.block * cfg.blockSize + off) size
        = memcpy dst 0 v.back off size := by
    intro dst off size h
    rw [← hv.back, memcpy_block_src h]
  -- what an operation leaves of the slots when it only writes to the block's side of the cell
  have hslot : ∀ (s' : CacheState n) (back word clean dirty), s'.entries = s.entries →
      s'.cacheData = s.cacheData →
      ∀ e ∈ o, Slot cfg s' e ⟨v.slot, v.status, back, word, clean, dirty⟩ := by
    intro s' back word clean dirty he hd e ho
    exact ⟨by rw [he]; exact (hs e ho).status, by rw [he, hd]; exact (hs e ho).bytes⟩
  -- and what it leaves of them when it writes a whole block to the slot
  have hwritten : ∀ e ∈ o, ∀ src : Bytes, ∀ k ∈ o,
      Slot cfg { s with
          cacheData := memcpy s.cacheData ((ids e).toNat * cfg.blockSize) src 0 cfg.blockSize } k
        { v with slot := memcpy v.slot 0 src 0 cfg.blockSize } := by
    intro e he src k hk
    obtain rfl : k = e := Option.mem_unique hk he
    refine ⟨(hs k hk).status, ?_⟩
    dsimp only
    rw [hids k, ← (hs k hk).bytes, hids k]
    exact block_memcpy_whole
  cases op with
  | readBlockFromCache i d =>
    obtain ⟨e, he, rfl⟩ := hu
    refine ⟨?_, hv, hs⟩
    simp only [send, Cell.send]
    rw [hread e he]
  | writeBlockToCache i d =>
    obtain ⟨e, he, rfl⟩ := hu
    exact ⟨rfl, ⟨hv.back, hv.word, hv.clean, hv.dirty⟩, hwritten e he (m.get d)⟩
  | demoteBlockToCache i =>
    obtain ⟨e, he, rfl⟩ := hu
    have hbytes : block cfg.blockSize (ids e).toNat s.cacheData = v.slot := by
      rw [← hids e]
      exact (hs e he).bytes
    refine ⟨rfl, ⟨hv.back, hv.word, hv.clean, hv.dirty⟩, ?_⟩
    simp only [send, Cell.send]
    rw [hbytes]
    exact hwritten e he (cfg.cacheDiscard v.slot)
  | promoteBlockFromBackend d =>
    refine ⟨?_, hv, hs⟩
    simp only [send, Cell.send]
    rw [← hback _ 0 _ (by omega), Nat.add_zero]
  | promoteFromBackend d =>
    refine ⟨?_, hv, hs⟩
    simp only [send, Cell.send]
    rw [hback _ _ _ req.inBlock]
  | writeToBackend d =>
    refine ⟨rfl, ⟨?_, hv.word, hv.clean, hv.dirty⟩, hslot _ _ _ _ _ rfl rfl⟩
    simp only [send, Cell.send]
    rw [← hv.back]
    exact block_memcpy_self req.inBlock
  | discardBlockToBackend =>
    refine ⟨rfl, ⟨?_, hv.word, hv.clean, hv.dirty⟩, hslot _ _ _ _ _ rfl rfl⟩
    simp only [send, Cell.send]
    rw [← hv.back]
    exact block_memcpy_whole
  | updateCacheMeta st x i =>
    cases st with
    | none =>
      refine ⟨rfl, ⟨hv.back, ?_, hv.clean, hv.dirty⟩, hslot _ _ _ _ _ rfl rfl⟩
      simp [send, Cell.send, sendUpdateCacheMeta, setMeta]
    | some e =>
      obtain ⟨he, rfl⟩ := hu
      refine ⟨rfl, ⟨hv.back, ?_, hv.clean, hv.dirty⟩, ?_⟩
      · simp [send, Cell.send, sendUpdateCacheMeta, setMeta]
      · intro k hk
        obtain rfl : k = e := Option.mem_unique hk he
        refine ⟨by simp [send, Cell.send, sendUpdateCacheMeta, setMeta], ?_⟩
        rw [send_entryId]
        exact (hs k hk).bytes
  | updateLRU st e c =>
    obtain ⟨he, rfl | rfl⟩ := hu
    · refine ⟨rfl, ⟨hv.back, hv.word, ?_, ?_⟩, hslot _ _ _ _ _ rfl rfl⟩
      · simp [send, Cell.send, sendUpdateLRU, mem_remove hn.clean]
      · simp [send, Cell.send, sendUpdateLRU, mem_remove hn.dirty]
    · obtain ⟨hshows, hslots⟩ := sendUpdateLRU_cell (m := m) (c := c) hn hv (hs e he)
      refine ⟨?_, hshows, fun k hk => hslots k (hs k hk)⟩
      simp only [send, Cell.send]
      split <;> rfl
  | resetCacheEntry e =>
    refine ⟨rfl, ⟨hv.back, hv.word, hv.clean, hv.dirty⟩, ?_⟩
    intro k hk
    obtain rfl : k = e := Option.mem_unique hk hu
    refine ⟨by simp [send, Cell.send], ?_⟩
    rw [send_entryId]
    exact (hs k hk).bytes
  | flushBlockToBackend i e d =>
    obtain ⟨he, rfl⟩ := hu
    have hst := (hs e he).status
    simp only [send, Cell.send]
    by_cases h : v.status = promotedUnflushed
    · rw [if_pos (hst.trans h), if_pos h, hread e he]
      refine ⟨rfl, ⟨?_, hv.word, hv.clean, hv.dirty⟩, hslot _ _ _ _ _ rfl rfl⟩
      rw [← hv.back]
      exact block_memcpy_whole
    · rw [if_neg (fun hc => h (hst.symm.trans hc)), if_neg h]
      exact ⟨rfl, hv, hs⟩
  | updateTierMeta x e | executeDataStoreRequest i d => cases hu
  | releaseDiscardBlock =>
    exact ⟨rfl, ⟨hv.back, hv.word, hv.clean, hv.dirty⟩, hslot _ _ _ _ _ rfl rfl⟩
  | demoteBlockBuffer | readFromBuffer | writeToBuffer | doNothing => exact ⟨rfl, hv, hs⟩

/-! ## What an operation does to any other cell -/

section Frame

variable {cfg : CacheConfig} {req : BlockRequest cfg.blockSize} {op : BlockOp n} {m : Bufs}
  {s : CacheState n} {v : Cell}

theorem send_shows_other {b : Nat} (hb : b ≠ req.block) (hv : Shows cfg s b v) :
    Shows cfg (send cfg req op (m, s)).2 b v := by
  cases op with
  | writeToBackend d =>
    refine ⟨?_, hv.word, hv.clean, hv.dirty⟩
    simp only [send]
    rw [block_memcpy_other hb req.inBlock]; exact hv.back
  | discardBlockToBackend =>
    refine ⟨?_, hv.word, hv.clean, hv.dirty⟩
    simp only [send]
    rw [block_memcpy_whole_other hb]; exact hv.back
  | flushBlockToBackend i e d =>
    simp only [send]
    split
    · refine ⟨?_, hv.word, hv.clean, hv.dirty⟩
      rw [block_memcpy_whole_other hb]; exact hv.back
    · exact hv
  | updateCacheMeta st x i =>
    cases st with
    | none | some e =>
      refine ⟨hv.back, ?_, hv.clean, hv.dirty⟩
      simp only [send, sendUpdateCacheMeta, setMeta]
      rw [update_of_ne hb]; exact hv.word
  | updateTierMeta x e =>
    refine ⟨hv.back, ?_, hv.clean, hv.dirty⟩
    simp only [send, setMeta]
    rw [update_of_ne hb]; exact hv.word
  | updateLRU st e c =>
    cases st with
    | none =>
      refine ⟨hv.back, hv.word, ?_, ?_⟩
      · simp only [send, sendUpdateLRU]
        rw [mem_remove_of_ne hb]; exact hv.clean
      · simp only [send, sendUpdateLRU]
        rw [mem_remove_of_ne hb]; exact hv.dirty
    | some e' =>
      have hf := sendUpdateLRU_frame cfg req.block e' e c s
      simp only [send]
      refine ⟨by rw [hf.backData]; exact hv.back, by rw [hf.blockMeta]; exact hv.word, ?_, ?_⟩
      · rcases sendUpdateLRU_lists cfg req.block e' e c s with ⟨_, hc, _⟩ | ⟨_, hc, _⟩
        · rw [hc, mem_remove_of_ne hb]; exact hv.clean
        · rw [hc, mem_touchKey]; simpa [hb] using hv.clean
      · rcases sendUpdateLRU_lists cfg req.block e' e c s with ⟨_, _, hd⟩ | ⟨_, _, hd⟩
        · rw [hd, mem_touchKey]; simpa [hb] using hv.dirty
        · rw [hd, mem_remove_of_ne hb]; exact hv.dirty
  | _ => exact ⟨hv.back, hv.word, hv.clean, hv.dirty⟩

theorem send_slot_other {ids : Fin n → UInt32} {o : Option (Fin n)} {k : Fin n}
    (hu : Uses ids o op) (hids : ∀ k, (s.entries k).entryId = ids k)
    (hinj : Injective ids) (hk : k ∉ o) (hs : Slot cfg s k v) :
    Slot cfg (send cfg req op (m, s)).2 k v := by
  have hne : ∀ e ∈ o, (ids k).toNat ≠ (ids e).toNat := by
    intro e he heq
    exact hk (hinj (UInt32.toNat_inj.mp heq) ▸ he)
  have hnk : ∀ e ∈ o, k ≠ e := fun e he heq => hk (heq ▸ he)
  cases op with
  | writeBlockToCache i d | demoteBlockToCache i =>
    obtain ⟨e, he, rfl⟩ := hu
    refine ⟨hs.status, ?_⟩
    simp only [send]
    rw [← hs.bytes, hids k]
    exact block_memcpy_whole_other (hne e he)
  | updateCacheMeta st x i =>
    cases st with
    | none => exact ⟨hs.status, hs.bytes⟩
    | some e =>
      refine ⟨?_, by rw [send_entryId]; exact hs.bytes⟩
      simp only [send, sendUpdateCacheMeta, setMeta]
      rw [setStatus_status_of_ne _ _ _ _ (hnk e hu.1)]; exact hs.status
  | updateLRU st e c =>
    cases st with
    | none => exact ⟨hs.status, hs.bytes⟩
    | some e' =>
      have hf := sendUpdateLRU_frame cfg req.block e' e c s
      simp only [send]
      exact ⟨by rw [hf.status]; exact hs.status, by rw [hf.entryId, hf.cacheData]; exact hs.bytes⟩
  | resetCacheEntry e =>
    refine ⟨?_, by rw [send_entryId]; exact hs.bytes⟩
    simp only [send, setTimeoutComp_status]
    rw [setStatus_status_of_ne _ _ _ _ (hnk e hu)]; exact hs.status
  | flushBlockToBackend i e d =>
    simp only [send]
    split
    · exact ⟨hs.status, hs.bytes⟩
    · exact hs
  | updateTierMeta x e => cases hu
  | _ => exact ⟨hs.status, hs.bytes⟩

end Frame

end HDCS.Proof
