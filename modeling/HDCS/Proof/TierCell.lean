import HDCS.Core.FlatVolume
import HDCS.Core.TierPolicy
import HDCS.Proof.LocalPolicy

/-!
# One block of the tier

In tier mode every block has an entry and a place of its own, so the policy is
local: the cell of a block is its bytes on either store, its entry's status and
its metadata word, and no chain of another block reaches them (`tierLocal`).

What a request makes of the cell is then a function, `TierCell.apply`. `map`
never takes the chains for an unpromoted block, and the function shows it: a READ
returns the cache's bytes whatever the status says, and a WRITE is merged with
them.
-/

namespace HDCS.Proof

open Lib List

variable {n : Nat}

structure TierCell where
  /-- The block's bytes in the cache. -/
  cache : Bytes
  /-- The block's bytes on the backend. -/
  back : Bytes
  /-- `entry->status`. -/
  status : BlockStatus
  /-- The block's metadata word. -/
  word : BlockStatus

namespace TierCell

variable (cfg : TierConfig)

/-- The cell of a block. -/
def of (s : TierState n) (b : Nat) : TierCell where
  cache := block cfg.blockSize b s.cacheData
  back := block cfg.blockSize b s.backData
  status := if h : b < n then (s.entries ⟨b, h⟩).status else unpromoted
  word := s.blockMeta b

def send (req : BlockRequest cfg.blockSize) (op : BlockOp n) (x : Bufs × TierCell) :
    Bufs × TierCell :=
  let m := x.1
  let v := x.2
  let bs := cfg.blockSize
  match op with
  | .readFromBuffer =>
    (m.set .dataPtr (memcpy m.dataPtr 0 m.blockBuffer req.offset req.size), v)
  | .writeToBuffer =>
    (m.set .blockBuffer (memcpy m.blockBuffer req.offset m.dataPtr 0 req.size), v)
  | .promoteBlockFromBackend d => (m.set d (memcpy (m.get d) 0 v.back 0 bs), v)
  | .readBlockFromCache _ d => (m.set d (memcpy (m.get d) 0 v.cache 0 bs), v)
  | .writeBlockToCache _ d => (m, { v with cache := memcpy v.cache 0 (m.get d) 0 bs })
  | .executeDataStoreRequest _ d => (m, { v with cache := memcpy v.cache 0 (m.get d) 0 bs })
  | .demoteBlockToCache _ =>
    (m, { v with cache := memcpy v.cache 0 (cfg.cacheDiscard v.cache) 0 bs })
  | .updateTierMeta x _ => (m, { v with status := x, word := x })
  | .flushBlockToBackend _ _ d =>
    if v.status = promotedUnflushed then
      let m := m.set d (memcpy (m.get d) 0 v.cache 0 bs)
      (m, { v with back := memcpy v.back 0 (m.get d) 0 bs })
    else (m, v)
  | _ => (m, v)

structure Clipped (v : TierCell) : Prop where
  cache : Lib.Clipped cfg.blockSize v.cache
  back : Lib.Clipped cfg.blockSize v.back

theorem clipped_of (s : TierState n) (b : Nat) : (of cfg s b).Clipped cfg :=
  ⟨clipped_block _ _ _, clipped_block _ _ _⟩

end TierCell

/-! ## The chains -/

def OnBlock (b : Nat) : BlockOp n → Prop
  | .readBlockFromCache i _ => i = b
  | .writeBlockToCache i _ => i = b
  | .executeDataStoreRequest i _ => i = b
  | .demoteBlockToCache i => i = b
  | .updateTierMeta _ e => e.val = b
  | .flushBlockToBackend i e _ => i = b ∧ e.val = b
  | _ => True

section Chains

variable (cfg : TierConfig) (req : BlockRequest cfg.blockSize)

def tierOps (e : Fin n) : List (BlockOp n) :=
  match req.ioType with
  | .read => TierPolicy.readPromoted cfg req
  | .write => TierPolicy.writeOver cfg req e (.readBlockFromCache req.block .blockBuffer)
  | .discard => TierPolicy.discard cfg req e
  | .flush => TierPolicy.flush cfg req e
  | .promote => TierPolicy.promote cfg req e
  | .demoteCache => [.doNothing]

def tierChain : List (BlockOp cfg.blocksCount) :=
  if h : req.block < cfg.blocksCount then tierOps cfg req ⟨req.block, h⟩ else []

variable {cfg req}

theorem onBlock_tierOps {e : Fin n} (he : e.val = req.block) :
    ∀ op ∈ tierOps cfg req e, OnBlock req.block op := by
  unfold tierOps
  cases req.ioType with
  | read =>
    unfold TierPolicy.readPromoted
    dsimp only
    split <;> simp [OnBlock]
  | write =>
    unfold TierPolicy.writeOver
    dsimp only
    split <;> simp [OnBlock, he]
  | discard => simp [TierPolicy.discard, OnBlock, he]
  | flush => simp [TierPolicy.flush, OnBlock, he]
  | promote => simp [TierPolicy.promote, OnBlock, he]
  | demoteCache => simp [OnBlock]

theorem onBlock_tierChain : ∀ op ∈ tierChain cfg req, OnBlock req.block op := by
  unfold tierChain
  split
  · exact onBlock_tierOps rfl
  · simp

theorem mem_tierChain {op : BlockOp cfg.blocksCount} (h : op ∈ tierChain cfg req) :
    req.block < cfg.blocksCount := by
  unfold tierChain at h
  split at h
  · assumption
  · cases h

end Chains

/-! ## The policy is local -/

/-- Every block of the volume has its own entry. -/
def Wired (s : TierState n) : Prop := ∀ b, s.entry b = if h : b < n then some ⟨b, h⟩ else none

section Local

variable {cfg : TierConfig} {req : BlockRequest cfg.blockSize}

theorem tierMap_eq (req : BlockRequest cfg.blockSize) {s : TierState cfg.blocksCount}
    (h : Wired s) :
    (TierPolicy.map cfg req s).1 = tierChain cfg req
      ∧ ∃ flags, (TierPolicy.map cfg req s).2 = { s with inDiscardProcess := flags } := by
  unfold TierPolicy.map tierChain
  dsimp only
  rw [h req.block]
  by_cases hb : req.block < cfg.blocksCount
  · simp only [dif_pos hb, TierPolicy.isUnpromoted, Option.isNone_some]
    unfold tierOps
    cases req.ioType <;> exact ⟨rfl, _, rfl⟩
  · simp only [dif_neg hb]
    exact ⟨trivial, s.inDiscardProcess, rfl⟩

theorem tierSend_entry {op : BlockOp n} {m : Bufs} {s : TierState n} :
    (TierPolicy.send cfg req op (m, s)).2.entry = s.entry := by
  cases op with
  | flushBlockToBackend i e d => simp only [TierPolicy.send]; split <;> rfl
  | _ => rfl

theorem tierSend_self {op : BlockOp n} {m : Bufs} {s : TierState n} (hop : OnBlock req.block op)
    (hb : req.block < n) :
    ((TierPolicy.send cfg req op (m, s)).1,
      TierCell.of cfg (TierPolicy.send cfg req op (m, s)).2 req.block)
      = TierCell.send cfg req op (m, TierCell.of cfg s req.block) := by
  have hread : ∀ (dst src : Bytes),
      memcpy dst 0 (block cfg.blockSize req.block src) 0 cfg.blockSize
        = memcpy dst 0 src (req.block * cfg.blockSize) cfg.blockSize := by
    intro dst src
    rw [memcpy_block_src (by omega)]
    rfl
  cases op with
  | readBlockFromCache i d =>
    obtain rfl : i = req.block := hop
    simp only [TierPolicy.send, TierCell.send, TierCell.of, hread]
  | promoteBlockFromBackend d => simp only [TierPolicy.send, TierCell.send, TierCell.of, hread]
  | writeBlockToCache i d | executeDataStoreRequest i d | demoteBlockToCache i =>
    obtain rfl : i = req.block := hop
    simp only [TierPolicy.send, TierCell.send, TierCell.of, block_memcpy_whole]
  | updateTierMeta x e =>
    obtain rfl : e = ⟨req.block, hb⟩ := Fin.ext hop
    simp only [TierPolicy.send, TierPolicy.sendUpdateTierMeta, TierCell.send, TierCell.of,
      dif_pos hb, Function.update_self]
  | flushBlockToBackend i e d =>
    obtain ⟨rfl, he⟩ : i = req.block ∧ e.val = req.block := hop
    obtain rfl : e = ⟨req.block, hb⟩ := Fin.ext he
    simp only [TierPolicy.send, TierCell.send, TierCell.of, dif_pos hb]
    split
    · simp only [hread, block_memcpy_whole]
    · rfl
  | _ => rfl

theorem tierSend_other {op : BlockOp n} {m : Bufs} {s : TierState n} {b : Nat}
    (hop : OnBlock req.block op) (hne : b ≠ req.block) :
    TierCell.of cfg (TierPolicy.send cfg req op (m, s)).2 b = TierCell.of cfg s b := by
  cases op with
  | writeBlockToCache i d | executeDataStoreRequest i d | demoteBlockToCache i =>
    obtain rfl : i = req.block := hop
    simp only [TierPolicy.send, TierCell.of, block_memcpy_whole_other hne]
  | updateTierMeta x e =>
    have hval : e.val = req.block := hop
    have hbe : ∀ h : b < n, (⟨b, h⟩ : Fin n) ≠ e :=
      fun h he => hne ((congrArg Fin.val he).trans hval)
    simp only [TierPolicy.send, TierPolicy.sendUpdateTierMeta, TierCell.of,
      Function.update_of_ne hne]
    congr 1
    split
    · rename_i h
      rw [Function.update_of_ne (hbe h)]
    · rfl
  | flushBlockToBackend i e d =>
    simp only [TierPolicy.send]
    split
    · simp only [TierCell.of, block_memcpy_whole_other hne]
    · rfl
  | _ => rfl

/-- **The tier policy is local.** -/
def tierLocal (cfg : TierConfig) : LocalPolicy (TierPolicy.policy cfg) TierCell where
  Ok := Wired
  cell := TierCell.of cfg
  chain := tierChain cfg
  send := TierCell.send cfg
  map_ok := by
    intro req s h
    obtain ⟨flags, hmap⟩ := (tierMap_eq req h).2
    show Wired (TierPolicy.map cfg req s).2
    rw [hmap]
    exact h
  map_ops := fun h => (tierMap_eq _ h).1
  map_cell := by
    intro req s b h
    obtain ⟨flags, hmap⟩ := (tierMap_eq req h).2
    show TierCell.of cfg (TierPolicy.map cfg req s).2 b = _
    rw [hmap]
    rfl
  send_ok := by
    intro req op m s h _ b
    rw [tierSend_entry]
    exact h b
  send_self := fun _ hop => tierSend_self (onBlock_tierChain _ hop) (mem_tierChain hop)
  send_other := fun _ hop hne => tierSend_other (onBlock_tierChain _ hop) hne

theorem wired_new (cfg : TierConfig) (cacheData : Bytes) (blockMeta : Nat → BlockStatus)
    (backData : Bytes) : Wired (TierPolicy.new cfg cacheData blockMeta backData) := fun _ => rfl

end Local

/-! ## What a request makes of its block -/

namespace TierCell

def flushed (v : TierCell) : Bytes := if v.status = promotedUnflushed then v.cache else v.back

variable (cfg : TierConfig) (req : BlockRequest cfg.blockSize)

def apply (v : TierCell) : TierCell :=
  match req.ioType with
  | .read => v
  | .write =>
    { v with
      cache := memcpy v.cache req.offset req.data 0 req.size
      status := promotedUnflushed
      word := promotedUnflushed }
  | .flush => { v with back := v.flushed, status := HDCS.flushed, word := HDCS.flushed }
  | .promote => ⟨v.back, v.back, HDCS.flushed, HDCS.flushed⟩
  | .discard =>
    ⟨memcpy v.cache 0 (cfg.cacheDiscard v.cache) 0 cfg.blockSize, v.flushed, unpromoted, unpromoted⟩
  | .demoteCache => v

def applyAll (v : TierCell) (reqs : List (BlockRequest cfg.blockSize)) : TierCell :=
  reqs.foldl (fun v req => apply cfg req v) v

variable {cfg req} {v : TierCell}

theorem applyAll_snoc {reqs : List (BlockRequest cfg.blockSize)} :
    applyAll cfg v (reqs ++ [req]) = apply cfg req (applyAll cfg v reqs) := by
  unfold applyAll
  rw [foldl_append]
  rfl

theorem Clipped.flushed (h : v.Clipped cfg) : Lib.Clipped cfg.blockSize v.flushed := by
  unfold TierCell.flushed
  split
  · exact h.cache
  · exact h.back

theorem Clipped.apply (h : v.Clipped cfg) : (apply cfg req v).Clipped cfg := by
  unfold TierCell.apply
  cases req.ioType with
  | read | demoteCache => exact h
  | write => exact ⟨h.cache.memcpy req.inBlock, h.back⟩
  | flush => exact ⟨h.cache, h.flushed⟩
  | promote => exact ⟨h.back, h.back⟩
  | discard => exact ⟨h.cache.memcpy (by omega), h.flushed⟩

theorem Clipped.applyAll (h : v.Clipped cfg) (reqs : List (BlockRequest cfg.blockSize)) :
    (applyAll cfg v reqs).Clipped cfg := by
  induction reqs using List.reverseRecOn with
  | nil => exact h
  | append_singleton reqs req ih =>
    rw [applyAll_snoc]
    exact ih.apply

theorem Clipped.flush {m : Bufs} {e : Fin n} {d : Buf} {i : Nat} (h : v.Clipped cfg) :
    (send cfg req (.flushBlockToBackend i e d) (m, v)).2 = { v with back := v.flushed } := by
  simp only [send, TierCell.flushed]
  by_cases hst : v.status = promotedUnflushed
  · rw [if_pos hst, if_pos hst, Bufs.get_set_self, memcpy_copied h.back h.cache]
  · rw [if_neg hst, if_neg hst]

theorem whole_of_not_lt (h : ¬ req.size < cfg.blockSize) : req.Whole := by
  have := req.inBlock
  unfold BlockRequest.Whole
  omega

/-- **The chain of a request makes of the cell what `apply` says.** -/
theorem Clipped.execute (h : v.Clipped cfg) (hb : req.block < cfg.blocksCount) (scratch : Bytes) :
    ((tierLocal cfg).execute req scratch v).2 = TierCell.apply cfg req v := by
  have hchain : (tierLocal cfg).chain req = tierOps cfg req ⟨req.block, hb⟩ := dif_pos hb
  unfold LocalPolicy.execute LocalPolicy.run TierCell.apply
  rw [hchain]
  unfold tierOps
  cases req.ioType with
  | read =>
    unfold TierPolicy.readPromoted
    dsimp only
    split <;> rfl
  | write =>
    unfold TierPolicy.writeOver
    dsimp only
    split
    · simp only [tierLocal, foldl_cons, foldl_nil, send, Bufs.get_blockBuffer,
        Bufs.set_blockBuffer, memcpy_merged req.inBlock]
    · rename_i hsize
      have hw := whole_of_not_lt hsize
      have hs : req.size = cfg.blockSize := hw
      simp only [tierLocal, foldl_cons, foldl_nil, send, Bufs.get_dataPtr, hw.offset, hs]
  | flush =>
    simp only [TierPolicy.flush, tierLocal, foldl_cons, foldl_nil]
    rw [← Prod.mk.eta (p := send cfg req (.flushBlockToBackend _ _ _) _), h.flush]
    rfl
  | promote =>
    simp only [TierPolicy.promote, tierLocal, foldl_cons, foldl_nil, send,
      Bufs.get_dataPtr, Bufs.set_dataPtr, memcpy_copied h.cache h.back]
  | discard =>
    simp only [TierPolicy.discard, tierLocal, foldl_cons, foldl_nil]
    rw [← Prod.mk.eta (p := send cfg req (.flushBlockToBackend _ _ _) _), h.flush]
    rfl
  | demoteCache => rfl

/-- **A READ returns the cache's bytes.** -/
theorem execute_answers (hb : req.block < cfg.blocksCount) (scratch : Bytes) :
    Answers req v.cache ((tierLocal cfg).execute req scratch v).1.dataPtr := by
  intro hio i hi
  have hin := req.inBlock
  have hchain : (tierLocal cfg).chain req = tierOps cfg req ⟨req.block, hb⟩ := dif_pos hb
  unfold LocalPolicy.execute LocalPolicy.run
  rw [hchain]
  unfold tierOps TierPolicy.readPromoted
  rw [hio]
  dsimp only
  split
  · simp only [tierLocal, foldl_cons, foldl_nil, send, Bufs.get_blockBuffer,
      Bufs.set_blockBuffer, Bufs.set_dataPtr]
    rw [memcpy_of_mem (by omega) (by omega), memcpy_of_mem (by omega) (by omega)]
    congr 1
    omega
  · rename_i hsize
    have hw := whole_of_not_lt hsize
    simp only [tierLocal, foldl_cons, foldl_nil, send, Bufs.get_dataPtr, Bufs.set_dataPtr]
    rw [memcpy_of_mem (by omega) (by omega), hw.offset]
    congr 1

end TierCell

end HDCS.Proof
