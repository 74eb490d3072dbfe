import HDCS.Core.DataStore

/-!
# When an engine is a block store

What an engine leaves behind after a call is never wrong, as far as its callers can tell. What
is missing is in the reads: an engine does not fill the whole buffer. `SimpleBlockStore` copies up
to the end of its file, which is inside of the last block if the size is no multiple of the
block size, and `KVStore` copies nothing at all. The callers see what they would see of
`BlockStore` if and only if their buffers hold the other bytes already (`engine_seen_iff`).
-/

namespace HDCS.Proof

open Lib DataStore

variable {blockSize : Nat} {e : DataStore} {a : BlockStore}

def Copies : DataStore → Nat → Prop
  | .simple s, x => x < s.dataStore.size
  | .kv _, _ => False

/-- The engine holds what it should, as far as anyone can see. -/
def StoreMatches : DataStore → BlockStore → Prop
  | .simple s, a => a.data = s.dataStore.data ∧ a.status = s.metaStoreMmap
  | .kv s, a => a.status = s.metaStoreMmap

def Supplied (blockSize : Nat) (e : DataStore) (a : BlockStore) : StoreCall → Prop
  | .blockRead blockId data => ∀ i < blockSize, ¬ Copies e (blockId * blockSize + i) →
      data i = a.data (blockId * blockSize + i)
  | .read data offset size => ∀ i < size, ¬ Copies e (offset + i) → data i = a.data (offset + i)
  | _ => True

/-- They are for every call. -/
def AllSupplied (blockSize : Nat) : DataStore → BlockStore → List StoreCall → Prop
  | _, _, [] => True
  | e, a, c :: calls => Supplied blockSize e a c
    ∧ AllSupplied blockSize (e.step blockSize c).2 (a.step blockSize c).2 calls

/-! ## One call -/

theorem pread_seen_iff {s : SimpleBlockStore} (h : StoreMatches (.simple s) a) (buf : Bytes)
    (count offset : Nat) :
    (s.dataStore.pread buf count offset).1 = memcpy buf 0 a.data offset count
      ↔ ∀ i < count, ¬ Copies (.simple s) (offset + i) → buf i = a.data (offset + i) := by
  rw [h.1, PosixFile.pread_eq_iff]
  refine forall₂_congr fun i _ => ?_
  rw [Copies, Nat.not_lt]
  refine forall_congr' fun hend => ?_
  rw [s.dataStore.clipped _ hend]

theorem untouched_seen_iff (buf : Bytes) (count offset : Nat) (s : KVStore) :
    buf = memcpy buf 0 a.data offset count
      ↔ ∀ i < count, ¬ Copies (.kv s) (offset + i) → buf i = a.data (offset + i) := by
  rw [eq_comm, memcpy_eq_self_iff]
  refine forall₂_congr fun i _ => ?_
  rw [Copies, not_false_eq_true, true_imp_iff, eq_comm]

/-- **A call is seen to do what it should if and only if the buffer is supplied**, and
what it leaves behind is always right. -/
theorem step_seen_iff (blockSize : Nat) (h : StoreMatches e a) (c : StoreCall) :
    ((e.step blockSize c).1 = (a.step blockSize c).1 ↔ Supplied blockSize e a c)
      ∧ StoreMatches (e.step blockSize c).2 (a.step blockSize c).2 := by
  cases e with
  | simple s =>
    obtain ⟨hdata, hstatus⟩ := h
    cases c with
    | blockWrite blockId data | write data offset size =>
      refine ⟨iff_of_true rfl trivial, ?_, hstatus⟩
      exact (congrArg (memcpy · _ _ _ _) hdata).trans PosixFile.pwrite_data.symm
    | blockRead blockId data | read data offset size =>
      refine ⟨Iff.trans ?_ (pread_seen_iff ⟨hdata, hstatus⟩ ..), hdata, hstatus⟩
      exact ⟨Seen.bytes.inj, congrArg Seen.bytes⟩
    | blockDiscard blockId =>
      refine ⟨iff_of_true rfl trivial, ?_, hstatus⟩
      exact congrArg (memcpy · (blockId * blockSize) (fun _ => 0) 0 blockSize) hdata
    | blockMetaUpdate blockId status =>
      exact ⟨iff_of_true rfl trivial, hdata, congrArg (Function.update · _ _) hstatus⟩
    | getBlockMeta blockId =>
      refine ⟨iff_of_true ?_ trivial, hdata, hstatus⟩
      exact congrArg Seen.status (congrFun hstatus blockId).symm
  | kv s =>
    cases c with
    | blockWrite blockId data | blockDiscard blockId | write data offset size =>
      exact ⟨iff_of_true rfl trivial, h⟩
    | blockRead blockId data | read data offset size =>
      refine ⟨Iff.trans ?_ (untouched_seen_iff _ _ _ s), h⟩
      exact ⟨Seen.bytes.inj, congrArg Seen.bytes⟩
    | blockMetaUpdate blockId status =>
      exact ⟨iff_of_true rfl trivial, congrArg (Function.update · _ _) h⟩
    | getBlockMeta blockId =>
      refine ⟨iff_of_true ?_ trivial, h⟩
      exact congrArg Seen.status (congrFun h blockId).symm

/-! ## Runs -/

theorem run_seen_iff (blockSize : Nat) (h : StoreMatches e a) (calls : List StoreCall) :
    e.run blockSize calls = a.run blockSize calls ↔ AllSupplied blockSize e a calls := by
  induction calls generalizing e a with
  | nil => exact iff_of_true rfl trivial
  | cons c calls ih =>
    obtain ⟨hseen, hnext⟩ := step_seen_iff blockSize h c
    rw [DataStore.run, BlockStore.run, List.cons.injEq, hseen, ih hnext]
    rfl

def HasFile (storeSize : Nat) : DataStore → Prop
  | .simple s => storeSize ≤ s.dataStore.size
  | .kv _ => False

theorem HasFile.step {storeSize : Nat} (h : HasFile storeSize e) (c : StoreCall) :
    HasFile storeSize (e.step blockSize c).2 := by
  cases e with
  | simple s =>
    cases c with
    | blockWrite blockId data | write data offset size =>
      exact Nat.le_trans h PosixFile.size_le_pwrite
    | _ => exact h
  | kv s => exact h.elim

theorem HasFile.supplied {cfg : Config} (h : HasFile cfg.storeSize e)
    (hdvd : cfg.blockSize ∣ cfg.storeSize) {c : StoreCall} (hc : InRange cfg c) :
    Supplied cfg.blockSize e a c := by
  have hcopies : ∀ x < cfg.storeSize, Copies e x := by
    intro x hx
    cases e with
    | simple s => exact Nat.lt_of_lt_of_le hx h
    | kv s => exact h.elim
  cases c with
  | blockRead blockId data =>
    intro i hi hnot
    have hlt : blockId < cfg.storeSize / cfg.blockSize := by
      have hcount : blockId < cfg.blockCount cfg.storeSize := hc
      rwa [Config.blockCount, if_neg (not_not.mpr (Nat.mod_eq_zero_of_dvd hdvd))] at hcount
    have hend : (blockId + 1) * cfg.blockSize ≤ cfg.storeSize :=
      Nat.le_trans (Nat.mul_le_mul_right _ hlt) (Nat.div_mul_le_self ..)
    rw [Nat.add_mul] at hend
    exact absurd (hcopies _ (by omega)) hnot
  | read data offset size =>
    intro i hi hnot
    have hend : offset + size ≤ cfg.storeSize := hc
    exact absurd (hcopies _ (by omega)) hnot
  | _ => trivial

theorem HasFile.allSupplied {cfg : Config} (hdvd : cfg.blockSize ∣ cfg.storeSize)
    {calls : List StoreCall} (hcalls : ∀ c ∈ calls, InRange cfg c) (h : HasFile cfg.storeSize e) :
    AllSupplied cfg.blockSize e a calls := by
  induction calls generalizing e a with
  | nil => trivial
  | cons c calls ih =>
    exact ⟨h.supplied hdvd (hcalls c List.mem_cons_self),
      ih (fun c' hc' => hcalls c' (List.mem_cons_of_mem c hc')) (h.step c)⟩

theorem hasFile_createEngine (cfg : Config) {engineType : String} (hkv : engineType ≠ "kv")
    (disk : Disk) : HasFile cfg.storeSize (createEngine cfg engineType disk) := by
  rw [createEngine, if_neg hkv, HasFile, openAndInit]
  split_ifs with hsmall
  · exact Nat.le_refl _
  · exact Nat.not_lt.mp hsmall

theorem storeMatches_createEngine (cfg : Config) {engineType : String} (hkv : engineType ≠ "kv")
    (disk : Disk) :
    StoreMatches (createEngine cfg engineType disk) ⟨disk.dataFile.data, disk.metaFile⟩ := by
  rw [createEngine, if_neg hkv, openAndInit]
  refine ⟨?_, rfl⟩
  dsimp only
  split_ifs with hsmall
  · exact (PosixFile.ftruncate_data (Nat.le_of_lt hsmall)).symm
  · rfl

/--
**An engine is a block store if and only if its callers supply what it does not copy.** Every
engine but `kv` copies everything if the store is a number of whole blocks.
-/
theorem engine_seen_iff (cfg : Config) (engineType : String) (disk : Disk)
    (ha : StoreMatches (createEngine cfg engineType disk) a) {calls : List StoreCall}
    (hcalls : ∀ c ∈ calls, InRange cfg c) :
    ((createEngine cfg engineType disk).run cfg.blockSize calls = a.run cfg.blockSize calls
        ↔ AllSupplied cfg.blockSize (createEngine cfg engineType disk) a calls)
      ∧ (engineType ≠ "kv" → cfg.blockSize ∣ cfg.storeSize →
        (createEngine cfg engineType disk).run cfg.blockSize calls
          = a.run cfg.blockSize calls) := by
  have hiff := run_seen_iff cfg.blockSize ha calls
  exact ⟨hiff, fun hkv hdvd =>
    hiff.mpr ((hasFile_createEngine cfg hkv disk).allSupplied hdvd hcalls)⟩

/-- Nothing was ever stored. -/
def blankDisk : Disk := ⟨⟨0, fun _ => 0, fun _ _ => rfl⟩, fun _ => 0, fun _ => 0⟩

/-- Two blocks of two bytes each. -/
def fourBytes : Config := ⟨4, 4, 2, Nat.two_pos⟩

/-- Bytes and blocks, written, discarded and read. -/
def mixedCalls : List StoreCall :=
  [.write (fun _ => 7) 1 2, .blockRead 1 (fun _ => 9), .blockDiscard 1, .read (fun _ => 9) 1 3,
    .blockMetaUpdate 1 5, .getBlockMeta 1]

theorem mixedCalls_seen : (∀ c ∈ mixedCalls, InRange fourBytes c)
    ∧ (createEngine fourBytes "simple" blankDisk).run 2 mixedCalls
      = BlockStore.run 2 ⟨fun _ => 0, fun _ => 0⟩ mixedCalls := by
  have hcalls : ∀ c ∈ mixedCalls, InRange fourBytes c := by decide
  have hkv : "simple" ≠ "kv" := by decide
  refine ⟨hcalls, (engine_seen_iff fourBytes "simple" blankDisk ?_ hcalls).2 hkv (by decide)⟩
  exact storeMatches_createEngine fourBytes hkv blankDisk

/--
`KVStore` does not fill the buffer with what was written to the block. And of a store of three bytes
in blocks of two, `SimpleBlockStore` does not read the whole of a block that was discarded.
-/
theorem engines_differ :
    (((createEngine fourBytes "kv" blankDisk).run 2
        [.blockWrite 0 fun _ => 7, .blockRead 0 fun _ => 9])[1]?.bind (Seen.byte 0) = some 9
      ∧ (BlockStore.run 2 ⟨fun _ => 0, fun _ => 0⟩
        [.blockWrite 0 fun _ => 7, .blockRead 0 fun _ => 9])[1]?.bind (Seen.byte 0) = some 7)
    ∧ ((createEngine ⟨3, 3, 2, Nat.two_pos⟩ "simple" blankDisk).run 2
        [.blockDiscard 1, .blockRead 1 fun _ => 9])[1]?.bind (Seen.byte 1) = some 9
      ∧ (BlockStore.run 2 ⟨fun _ => 0, fun _ => 0⟩
        [.blockDiscard 1, .blockRead 1 fun _ => 9])[1]?.bind (Seen.byte 1) = some 0 := by
  decide +kernel

end HDCS.Proof
