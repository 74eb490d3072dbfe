import HDCS.Proof.LocalPolicy
import HDCS.Proof.WriteThrough

/-!
# Partial WRITEs, byte by byte

What the chains of a partial WRITE leave in the slot, from any state of the cache and with
anything in the scratch block.

A WRITE of a cached block reads the slot into the client's buffer, where the payload was. The
scratch block is never filled: the range of the WRITE gets the first bytes of the slot, and
everything else of the slot what was in the scratch block (`partialWriteHit_slot`).

A WRITE that takes a free entry reads only its own range from the backend, and to the start of the
scratch block. The payload is there, and around it the range once more, and what was in the
scratch block (`partialWriteMiss_slot`).
-/

namespace HDCS.Proof

open Lib LruList CachePolicy

variable {cfg : CacheConfig} {req : BlockRequest cfg.blockSize}
  {s : CacheState cfg.entriesCount} {e : Fin cfg.entriesCount} {scratch : Bytes}

/-- The bytes of the slot of an entry. -/
def slotBytes (cfg : CacheConfig) (s : CacheState cfg.entriesCount) (e : Fin cfg.entriesCount) :
    Bytes :=
  block cfg.blockSize (s.entries e).entryId.toNat s.cacheData

/-- The bytes of a block on the backend. -/
def backBytes (cfg : CacheConfig) (s : CacheState cfg.entriesCount) (b : Nat) : Bytes :=
  block cfg.blockSize b s.backData

theorem clipped_slotBytes (cfg : CacheConfig) (s : CacheState cfg.entriesCount)
    (e : Fin cfg.entriesCount) : Clipped cfg.blockSize (slotBytes cfg s e) :=
  clipped_block _ _ _

theorem clipped_backBytes (cfg : CacheConfig) (s : CacheState cfg.entriesCount) (b : Nat) :
    Clipped cfg.blockSize (backBytes cfg s b) :=
  clipped_block _ _ _

/-- The cache once the request has been served. -/
def served (cfg : CacheConfig) (req : BlockRequest cfg.blockSize) (scratch : Bytes)
    (s : CacheState cfg.entriesCount) : CacheState cfg.entriesCount :=
  ((policy cfg).execute req scratch s).2

/-- No operation stores anything into the client's buffer, whatever is in the buffers. -/
def NeverStores (cfg : CacheConfig) (req : BlockRequest cfg.blockSize)
    (ops : List (BlockOp cfg.entriesCount)) : Prop :=
  ∀ op ∈ ops, ∀ x : Bufs × CacheState cfg.entriesCount, (send cfg req op x).1.dataPtr = x.1.dataPtr

/-- The bytes of the block that the request is not about. -/
def Outside (req : BlockRequest cfg.blockSize) (i : Nat) : Prop :=
  i < cfg.blockSize ∧ ¬ (req.offset ≤ i ∧ i < req.offset + req.size)

theorem recordWrite_slots (x : Bufs × CacheState cfg.entriesCount) (id : UInt32)
    (comp : Option TimeoutComp) (k : Fin cfg.entriesCount) :
    slotBytes cfg ((recordWrite cfg e id comp).foldl (fun x op => send cfg req op x) x).2 k
      = slotBytes cfg x.2 k := by
  unfold recordWrite slotBytes
  split
  · simp only [List.foldl_cons, List.foldl_nil, send, sendUpdateCacheMeta, setMeta]
    rw [(sendUpdateLRU_frame ..).cacheData, (sendUpdateLRU_frame ..).entryId]
    simp only [setStatus_entryId]
    rfl
  · simp only [List.foldl_cons, List.foldl_nil, send, sendUpdateCacheMeta, setMeta]
    rw [(sendUpdateLRU_frame ..).cacheData, (sendUpdateLRU_frame ..).entryId]
    simp only [setStatus_entryId]
    rfl

section Hit

variable (hmode : cfg.cacheMode = .writeBack) (hio : req.ioType = .write)
  (hentry : s.entry req.block = some e)

include hmode hio hentry

theorem map_partialWriteHit :
    (map cfg req s).1 = writeHit cfg req e (s.entries e).entryId
        (newTimeoutComp cfg s.timeoutComps req.block)
      ∧ (map cfg req s).2.entries = s.entries ∧ (map cfg req s).2.cacheData = s.cacheData := by
  unfold map
  simp only [hio, hmode, hentry]
  exact ⟨rfl, rfl, rfl⟩

/-- **The slot after a partial WRITE of a cached block.** -/
theorem partialWriteHit_slot (hpart : req.size < cfg.blockSize) {i : Nat} (hi : i < cfg.blockSize) :
    slotBytes cfg (served cfg req scratch s) e i
      = if req.offset ≤ i ∧ i < req.offset + req.size then slotBytes cfg s e (i - req.offset)
        else scratch i := by
  obtain ⟨hops, hentries, hdata⟩ := map_partialWriteHit hmode hio hentry
  unfold served Policy.execute
  rw [hops]
  unfold writeHit
  rw [if_pos hpart, List.foldl_append, recordWrite_slots]
  simp only [List.foldl_cons, List.foldl_nil, send, Bufs.set_dataPtr, Bufs.set_blockBuffer,
    Bufs.get_dataPtr, Bufs.get_blockBuffer]
  unfold slotBytes
  rw [hentries, hdata]
  dsimp only
  rw [block_memcpy_whole, memcpy_of_mem (Nat.zero_le i) (by omega), Nat.sub_zero, Nat.zero_add]
  -- the range comes from the client's buffer, into which the slot has been read
  by_cases hr : req.offset ≤ i ∧ i < req.offset + req.size
  · have hin : i - req.offset < cfg.blockSize := by omega
    rw [if_pos hr, memcpy_of_mem hr.1 hr.2, Nat.zero_add, memcpy_of_mem (Nat.zero_le _) (by omega),
      block_of_lt hin, Nat.sub_zero]
  · rw [if_neg hr, memcpy_of_not_mem hr]

end Hit

/--
**A partial WRITE of a cached block.** The slot gets the payload, and keeps the rest, only where
the payload is what the slot began with and the scratch block happened to hold the rest. The
client's buffer is stored into in any case.
-/
theorem partialWriteHit_iff (cfg : CacheConfig) (hmode : cfg.cacheMode = .writeBack)
    (req : BlockRequest cfg.blockSize) (hio : req.ioType = .write)
    (hpart : req.size < cfg.blockSize) (scratch : Bytes) (s : CacheState cfg.entriesCount)
    (e : Fin cfg.entriesCount) (hentry : s.entry req.block = some e) :
    (slotBytes cfg (served cfg req scratch s) e
        = memcpy (slotBytes cfg s e) req.offset req.data 0 req.size
      ↔ (∀ i < req.size, slotBytes cfg s e i = req.data i)
        ∧ ∀ i, Outside req i → scratch i = slotBytes cfg s e i)
    ∧ ¬ NeverStores cfg req (map cfg req s).1 := by
  have hslot : ∀ i < cfg.blockSize, slotBytes cfg (served cfg req scratch s) e i = _ :=
    fun _ hi => partialWriteHit_slot hmode hio hentry hpart hi
  have hin := req.inBlock
  constructor
  · rw [eq_memcpy_iff (clipped_slotBytes _ _ _) (clipped_slotBytes _ _ _)]
    refine and_congr (forall₂_congr fun i hi => ?_) ⟨fun h i hi => ?_, fun h i hi hout => ?_⟩
    · rw [hslot _ (by omega), if_pos (by omega), Nat.add_sub_cancel_left]
    · rw [← h i hi.1 hi.2, hslot i hi.1, if_neg hi.2]
    · rw [hslot i hi, if_neg hout]
      exact h i ⟨hi, hout⟩
  · intro h
    -- the first operation of the chain, with a slot of ones and a buffer of zeros
    have hop : BlockOp.readBlockFromCache (s.entries e).entryId.toNat .dataPtr
        ∈ (map cfg req s).1 := by
      rw [(map_partialWriteHit hmode hio hentry).1]
      unfold writeHit
      rw [if_pos hpart]
      exact List.mem_append_left _ List.mem_cons_self
    have hstore := congrFun (h _ hop
      (⟨fun _ => 0, fun _ => 0⟩, { s with cacheData := fun _ => 1 })) 0
    have hone : memcpy (fun _ => 0) 0 (fun _ => 1)
        ((s.entries e).entryId.toNat * cfg.blockSize) cfg.blockSize 0 = 1 :=
      memcpy_of_mem (Nat.le_refl 0) (by have := cfg.blockSize_pos; omega)
    have hbyte : (1 : UInt8) = 0 := hone.symm.trans hstore
    cases hbyte

/-- The entry of the cache with one slot. -/
def onlyEntry : Fin (smallCache 0 .writeBack).entriesCount := ⟨0, by decide⟩

/-- The cache with one slot, with block 0 in it, over a backend of blocks that hold 3 and 5. -/
def smallCached : CacheState (smallCache 0 .writeBack).entriesCount :=
  served (smallCache 0 .writeBack) (wholeRequest .read 0 0) (fun _ => 0)
    (fresh (smallCache 0 .writeBack) (fun _ => 0) fun i => if i % 2 = 0 then 3 else 5)

/-- The byte that is written is the first one of the slot, and it is everywhere in the scratch. -/
theorem partialWriteHit_lucky :
    slotBytes (smallCache 0 .writeBack)
        (served (smallCache 0 .writeBack) (halfRequest .write 0 3) (fun _ => 3) smallCached)
        onlyEntry
      = memcpy (slotBytes (smallCache 0 .writeBack) smallCached onlyEntry) 1 (fun _ => 3) 0 1 := by
  have hbytes : ∀ i < 2, slotBytes (smallCache 0 .writeBack) smallCached onlyEntry i
      = if i = 0 then 3 else 5 := by decide +kernel
  refine (partialWriteHit_iff (smallCache 0 .writeBack) rfl (halfRequest .write 0 3) rfl
    (by decide) (fun _ => 3) smallCached onlyEntry (by decide +kernel)).1.mpr ⟨fun i hi => ?_, ?_⟩
  · obtain rfl : i = 0 := Nat.lt_one_iff.mp hi
    exact hbytes 0 (by decide)
  · intro i ⟨hi, hout⟩
    have hi : i < 2 := hi
    have hout : ¬ (1 ≤ i ∧ i < 1 + 1) := hout
    obtain rfl : i = 0 := by omega
    exact (hbytes 0 (by decide)).symm

/--
A WRITE of 9 to the second byte of a cached block that holds 3 and 5, with zeros in the scratch
block: the slot holds 0 and 3 afterwards, and the client's buffer 3 and 5.
-/
theorem partialWriteHit_loses_payload :
    smallCached.entry 0 = some onlyEntry
    ∧ slotBytes (smallCache 0 .writeBack)
        (served (smallCache 0 .writeBack) (halfRequest .write 0 9) (fun _ => 0) smallCached)
        onlyEntry
      ≠ memcpy (slotBytes (smallCache 0 .writeBack) smallCached onlyEntry) 1 (fun _ => 9) 0 1
    ∧ (((policy (smallCache 0 .writeBack)).execute (halfRequest .write 0 9) (fun _ => 0)
        smallCached).1.dataPtr 0,
      ((policy (smallCache 0 .writeBack)).execute (halfRequest .write 0 9) (fun _ => 0)
        smallCached).1.dataPtr 1) = (3, 5) := by
  refine ⟨by decide +kernel, fun h => ?_, by decide +kernel⟩
  have hbyte := congrFun h 1
  cases hbyte

section Miss

variable (hmode : cfg.cacheMode = .writeBack) (hio : req.ioType = .write)
  (hentry : s.entry req.block = none) (hfree : getHead s.freeLru = some e)

include hmode hio hentry hfree

theorem map_partialWriteMiss :
    (map cfg req s).1 = writeMiss cfg req e (s.entries e).entryId
        (newTimeoutComp cfg s.timeoutComps req.block)
      ∧ (map cfg req s).2.entries = s.entries ∧ (map cfg req s).2.backData = s.backData := by
  unfold map
  simp only [hio, hmode, hentry, hfree]
  exact ⟨rfl, rfl, rfl⟩

/-- **The slot after a partial WRITE that took a free entry.** -/
theorem partialWriteMiss_slot (hpart : req.size < cfg.blockSize) {i : Nat}
    (hi : i < cfg.blockSize) :
    slotBytes cfg (served cfg req scratch s) e i
      = if req.offset ≤ i ∧ i < req.offset + req.size then req.data (i - req.offset)
        else if i < req.size then backBytes cfg s req.block (req.offset + i) else scratch i := by
  obtain ⟨hops, hentries, hdata⟩ := map_partialWriteMiss hmode hio hentry hfree
  have hin := req.inBlock
  unfold served Policy.execute
  rw [hops]
  unfold writeMiss
  rw [if_pos hpart, List.foldl_append, recordWrite_slots]
  simp only [List.foldl_cons, List.foldl_nil, send, Bufs.set_blockBuffer, Bufs.get_blockBuffer]
  unfold slotBytes backBytes
  rw [hentries, hdata]
  dsimp only
  rw [block_memcpy_whole, memcpy_of_mem (Nat.zero_le i) (by omega), Nat.sub_zero, Nat.zero_add]
  by_cases hr : req.offset ≤ i ∧ i < req.offset + req.size
  · rw [if_pos hr, memcpy_of_mem hr.1 hr.2, Nat.zero_add]
  · rw [if_neg hr, memcpy_of_not_mem hr]
    -- what was read from the backend is at the start of the scratch block
    by_cases hhead : i < req.size
    · rw [if_pos hhead, memcpy_of_mem (Nat.zero_le i) (by omega), block_of_lt (by omega),
        Nat.sub_zero, Nat.add_assoc]
    · rw [if_neg hhead, memcpy_of_not_mem (by omega)]

end Miss

/--
**A partial WRITE that takes a free entry.** Around the payload the slot agrees with the backend
only where the backend repeats the range of the WRITE at the start of the block, and the scratch
block happened to hold the rest.
-/
theorem partialWriteMiss_iff (cfg : CacheConfig) (hmode : cfg.cacheMode = .writeBack)
    (req : BlockRequest cfg.blockSize) (hio : req.ioType = .write)
    (hpart : req.size < cfg.blockSize) (scratch : Bytes) (s : CacheState cfg.entriesCount)
    (e : Fin cfg.entriesCount) (hentry : s.entry req.block = none)
    (hfree : getHead s.freeLru = some e) :
    slotBytes cfg (served cfg req scratch s) e
        = memcpy (backBytes cfg s req.block) req.offset req.data 0 req.size
      ↔ ∀ i, Outside req i → backBytes cfg s req.block i
          = if i < req.size then backBytes cfg s req.block (req.offset + i) else scratch i := by
  have hslot : ∀ i < cfg.blockSize, slotBytes cfg (served cfg req scratch s) e i = _ :=
    fun _ hi => partialWriteMiss_slot hmode hio hentry hfree hpart hi
  have hin := req.inBlock
  rw [eq_memcpy_iff (clipped_slotBytes _ _ _) (clipped_backBytes _ _ _)]
  refine ⟨fun ⟨_, h⟩ i hi => ?_, fun h => ⟨fun i hi => ?_, fun i hi hout => ?_⟩⟩
  · have hbyte := h i hi.1 hi.2
    rw [hslot i hi.1, if_neg hi.2] at hbyte
    exact hbyte.symm
  · rw [hslot _ (by omega), if_pos (by omega), Nat.add_sub_cancel_left]
  · rw [hslot i hi, if_neg hout]
    exact (h i ⟨hi, hout⟩).symm

/-- The cache with one slot and nothing in it, over a backend of bytes `x` and `y`. -/
def smallEmpty (x y : UInt8) : CacheState (smallCache 0 .writeBack).entriesCount :=
  fresh (smallCache 0 .writeBack) (fun _ => 0) fun i => if i % 2 = 0 then x else y

/-- The backend repeats itself: what is read to the wrong place is right there too. -/
theorem partialWriteMiss_lucky :
    slotBytes (smallCache 0 .writeBack)
        (served (smallCache 0 .writeBack) (halfRequest .write 0 9) (fun _ => 0) (smallEmpty 5 5))
        onlyEntry
      = memcpy (backBytes (smallCache 0 .writeBack) (smallEmpty 5 5) 0) 1 (fun _ => 9) 0 1 := by
  refine (partialWriteMiss_iff (smallCache 0 .writeBack) rfl (halfRequest .write 0 9) rfl
    (by decide) (fun _ => 0) (smallEmpty 5 5) onlyEntry (by decide +kernel)
    (by decide +kernel)).mpr ?_
  intro i ⟨hi, hout⟩
  have hi : i < 2 := hi
  have hout : ¬ (1 ≤ i ∧ i < 1 + 1) := hout
  obtain rfl : i = 0 := by omega
  decide +kernel

/--
A WRITE of 9 to the second byte of a block that holds 3 and 5 on the backend: the first byte of
the slot is 5.
-/
theorem partialWriteMiss_mixes_up :
    (smallEmpty 3 5).entry 0 = none ∧ getHead (smallEmpty 3 5).freeLru = some onlyEntry
    ∧ slotBytes (smallCache 0 .writeBack)
        (served (smallCache 0 .writeBack) (halfRequest .write 0 9) (fun _ => 0) (smallEmpty 3 5))
        onlyEntry
      ≠ memcpy (backBytes (smallCache 0 .writeBack) (smallEmpty 3 5) 0) 1 (fun _ => 9) 0 1 := by
  refine ⟨by decide +kernel, by decide +kernel, fun h => ?_⟩
  have hbyte := congrFun h 0
  cases hbyte

end HDCS.Proof
