import HDCS.Proof.Ownership

/-!
# The write-back cache is a flat volume

At rest the content of an uncached block is on the backend, and the content of a
cached block is in its slot; a block whose status is `FLUSHED` has it in both
places. This is the contract of the write-back mode, for READs of any range,
whole-block WRITEs, FLUSH and DEMOTE_CACHE. The file checks it chain by chain,
and reads the refinement off the invariant.
-/

namespace HDCS.Proof

open Lib LruList CachePolicy Lib.Machine List

variable {n : Nat}

def Holds (w : Bytes) : Option (Fin n) → Cell → Prop
  | none, v => v.back = w
  | some _, v => v.slot = w ∧ (v.status = flushed → v.back = w)

def WriteBackRequest {bs : Nat} (req : BlockRequest bs) : Prop :=
  req.ioType = .read ∨ req.ioType = .write ∧ req.Whole ∨ req.ioType = .flush
    ∨ req.ioType = .demoteCache

instance {bs : Nat} (req : BlockRequest bs) : Decidable (WriteBackRequest req) :=
  inferInstanceAs (Decidable (_ ∨ _ ∧ _ ∨ _ ∨ _))

theorem WriteBackRequest.whole {bs : Nat} {req : BlockRequest bs} (h : WriteBackRequest req)
    (hio : req.ioType = .write) : req.Whole := by
  rcases h with h | h | h | h
  · rw [hio] at h; cases h
  · exact h.2
  · rw [hio] at h; cases h
  · rw [hio] at h; cases h

theorem WriteBackRequest.ne {bs : Nat} {req : BlockRequest bs} (h : WriteBackRequest req) :
    req.ioType ≠ .discard ∧ req.ioType ≠ .promote := by
  rcases h with h | h | h | h
  · rw [h]; exact ⟨by simp, by simp⟩
  · rw [h.1]; exact ⟨by simp, by simp⟩
  · rw [h]; exact ⟨by simp, by simp⟩
  · rw [h]; exact ⟨by simp, by simp⟩

section Chains

variable {cfg : CacheConfig} {req : BlockRequest cfg.blockSize} {ids : Fin n → UInt32}
  {a a' : Option (Fin n)} {ops : List (BlockOp n)} {w : Bytes} {m : Bufs} {v : Cell} {e : Fin n}
  {st : Option (Fin n)} {comp : Option TimeoutComp} {x : Bufs × Cell}

/-! ## What READs return -/

theorem bufs_updateLRU : (Cell.send cfg req (.updateLRU st e comp) x).1 = x.1 := by
  cases st with
  | none => rfl
  | some e' => simp only [Cell.send]; split <;> rfl

theorem answers_partial {u buf dst : Bytes} (i : Nat) (hi : i < req.size) :
    memcpy dst 0 (memcpy buf 0 u 0 cfg.blockSize) req.offset req.size i = u (req.offset + i) := by
  have hin := req.inBlock
  rw [memcpy_of_mem (by omega) (by omega), memcpy_of_mem (by omega) (by omega)]
  congr 1; omega

theorem answers_whole {u dst : Bytes} (hsz : ¬ req.size < cfg.blockSize) (i : Nat)
    (hi : i < req.size) : memcpy dst 0 u 0 cfg.blockSize i = u (req.offset + i) := by
  have hin := req.inBlock
  rw [memcpy_of_mem (by omega) (by omega)]
  congr 1; omega

theorem readHit_answers (i : Nat) (hi : i < req.size) :
    (Cell.run cfg req (readHit cfg req e (ids e) comp) (m, v)).1.dataPtr i
      = v.slot (req.offset + i) := by
  unfold readHit
  split
  · simp only [Cell.run_cons, Cell.run_nil, bufs_updateLRU]
    exact answers_partial i hi
  · rename_i hsz
    simp only [Cell.run_cons, Cell.run_nil, bufs_updateLRU]
    exact answers_whole hsz i hi

theorem readMiss_answers (i : Nat) (hi : i < req.size) :
    (Cell.run cfg req (readMiss cfg req e (ids e) comp) (m, v)).1.dataPtr i
      = v.back (req.offset + i) := by
  unfold readMiss
  split
  · simp only [Cell.run_cons, Cell.run_nil, bufs_updateLRU]
    exact answers_partial i hi
  · rename_i hsz
    simp only [Cell.run_cons, Cell.run_nil, bufs_updateLRU]
    exact answers_whole hsz i hi

theorem readNone_answers (i : Nat) (hi : i < req.size) :
    (Cell.run cfg req [.promoteFromBackend .dataPtr (n := n)] (m, v)).1.dataPtr i
      = v.back (req.offset + i) := by
  show memcpy m.dataPtr 0 v.back req.offset req.size i = _
  rw [memcpy_of_mem (by omega) (by omega), Nat.sub_zero]

/-! ## Where the content goes -/

theorem Holds.touch (h : Holds w (some e) x.2) :
    Holds w (some e) (Cell.send cfg req (.updateLRU (some e) e comp) x).2 := by
  simp only [Cell.send]
  split <;> exact h

theorem readMiss_slot (hwf : v.Wf cfg.blockSize) :
    Holds v.back (some e) (Cell.run cfg req (readMiss cfg req e (ids e) comp) (m, v)).2 := by
  unfold readMiss
  split
  · simp only [Cell.run_cons, Cell.run_nil]
    exact Holds.touch ⟨memcpy_copied hwf.slot hwf.back, fun _ => rfl⟩
  · simp only [Cell.run_cons, Cell.run_nil]
    exact Holds.touch ⟨memcpy_copied hwf.slot hwf.back, fun _ => rfl⟩

theorem recordWrite_holds (hw : req.Whole) (hd : x.1.dataPtr = req.data) (hs : x.2.slot = w)
    (hb : memcpy x.2.back 0 req.data 0 cfg.blockSize = w) :
    Holds w (some e) (Cell.run cfg req (recordWrite cfg e (ids e) comp) x).2 := by
  unfold recordWrite
  split
  · simp only [Cell.run_cons, Cell.run_nil]
    exact Holds.touch ⟨hs, fun h => absurd h promotedUnflushed_ne_flushed⟩
  · simp only [Cell.run_cons, Cell.run_nil]
    refine Holds.touch ⟨hs, fun _ => ?_⟩
    show memcpy x.2.back req.offset x.1.dataPtr 0 req.size = w
    rw [hd, hw.offset, show req.size = cfg.blockSize from hw]
    exact hb

theorem flush_back {i : Nat} {d : Buf} (hc : Controlled ids (some e) v) (h : Holds w (some e) v)
    (hwf : v.Wf cfg.blockSize) :
    (Cell.send cfg req (.flushBlockToBackend i e d) (m, v)).2.back = w
      ∧ (Cell.send cfg req (.flushBlockToBackend i e d) (m, v)).2.slot = w := by
  simp only [Cell.send]
  rcases hc.1 with ⟨hst, _⟩ | ⟨hst, _⟩
  · rw [if_pos hst]
    refine ⟨?_, h.1⟩
    rw [← h.1, Bufs.get_set_self]
    exact memcpy_copied hwf.back hwf.slot
  · rw [if_neg (by rw [hst]; decide)]
    exact ⟨h.2 hst, h.1⟩

theorem demote_back (hc : Controlled ids (some e) v) (h : Holds w (some e) v)
    (hwf : v.Wf cfg.blockSize) :
    (Cell.run cfg req (demote e (ids e) comp) (m, v)).2.back = w := by
  obtain ⟨hb, _⟩ := @flush_back _ cfg req ids w m v e (ids e).toNat .dataPtr hc h hwf
  unfold demote dropEntry
  simp only [Cell.run_cons, Cell.run_nil]
  -- what comes after the flush leaves the backend alone
  generalize Cell.send cfg req (.flushBlockToBackend (ids e).toNat e .dataPtr) (m, v) = x at hb ⊢
  exact hb

theorem flush_holds (hc : Controlled ids (some e) v) (h : Holds w (some e) v)
    (hwf : v.Wf cfg.blockSize) :
    (Cell.run cfg req (flush e (ids e) comp) (m, v)).2.slot = w
      ∧ (Cell.run cfg req (flush e (ids e) comp) (m, v)).2.back = w := by
  obtain ⟨hb, hs⟩ := @flush_back _ cfg req ids w m v e (ids e).toNat .dataPtr hc h hwf
  unfold flush
  simp only [Cell.run_cons, Cell.run_nil]
  simp only [Cell.send] at hb hs ⊢
  split <;> exact ⟨hs, hb⟩

theorem Whole.applyWrite_eq (hio : req.ioType = .write) (hw : req.Whole) :
    applyWrite req w = memcpy w 0 req.data 0 cfg.blockSize := by
  rw [applyWrite_write hio, hw.offset, show req.size = cfg.blockSize from hw]

/-- **Every chain of the write-back guarantee keeps the content where it belongs.** -/
theorem Built.holds (hmode : cfg.cacheMode ≠ .readOnly) (h : Built cfg ids a req ops a')
    (hok : WriteBackRequest req) (hc : Controlled ids a v) (hv : Holds w a v)
    (hwf : v.Wf cfg.blockSize) (hd : m.dataPtr = req.data) :
    Holds (applyWrite req w) a' (Cell.run cfg req ops (m, v)).2 := by
  have hsame : req.ioType ≠ .write → applyWrite req w = w := applyWrite_of_ne
  cases h with
  | @readHit _ e comp hio =>
    rw [hsame (by rw [hio]; simp)]
    unfold CachePolicy.readHit
    split
    · simp only [Cell.run_cons, Cell.run_nil]
      exact Holds.touch hv
    · simp only [Cell.run_cons, Cell.run_nil]
      exact Holds.touch hv
  | readMiss comp hio =>
    rw [hsame (by rw [hio]; simp), ← show v.back = w from hv]
    exact readMiss_slot hwf
  | readNone hio | demoteNone hio | flushNone hio => rw [hsame (by rw [hio]; simp)]; exact hv
  | writeReadOnly _ hro => exact absurd hro hmode
  | writeHit comp hio _ =>
    have hw := hok.whole hio
    rw [Whole.applyWrite_eq hio hw, ← hv.1]
    unfold CachePolicy.writeHit
    rw [if_neg (by rw [show req.size = cfg.blockSize from hw]; omega), Cell.run_cons]
    refine recordWrite_holds hw hd ?_ (memcpy_whole hwf.back hwf.slot)
    rw [← hd]; rfl
  | writeMiss comp hio _ =>
    have hw := hok.whole hio
    rw [Whole.applyWrite_eq hio hw, ← show v.back = w from hv]
    unfold CachePolicy.writeMiss
    rw [if_neg (by rw [show req.size = cfg.blockSize from hw]; omega), Cell.run_cons]
    refine recordWrite_holds hw hd ?_ rfl
    rw [← hd]; exact memcpy_whole hwf.slot hwf.back
  | writeNone hio _ =>
    rw [applyWrite_write hio, ← show v.back = w from hv, ← hd]
    rfl
  | demote comp hio => rw [hsame (by rw [hio]; simp)]; exact demote_back hc hv hwf
  | discard _ hio | discardNone hio => exact absurd hio hok.ne.1
  | flush comp hio =>
    rw [hsame (by rw [hio]; simp)]
    obtain ⟨hs, hb⟩ := flush_holds hc hv hwf
    exact ⟨hs, fun _ => hb⟩
  | promote hio => exact absurd hio hok.ne.2

theorem Built.flushed (h : Built cfg ids a req ops a')
    (hio : req.ioType = .flush ∨ req.ioType = .demoteCache) (hc : Controlled ids a v)
    (hv : Holds w a v) (hwf : v.Wf cfg.blockSize) :
    (Cell.run cfg req ops (m, v)).2.back = w := by
  cases h with
  | flush comp _ => exact (flush_holds hc hv hwf).2
  | flushNone _ | demoteNone _ => exact hv
  | demote comp _ => exact demote_back hc hv hwf
  | _ => simp_all

theorem Built.answers (h : Built cfg ids a req ops a') (hv : Holds w a v) :
    Answers req w (Cell.run cfg req ops (m, v)).1.dataPtr := by
  intro hio i hi
  cases h with
  | readHit comp _ => rw [← hv.1]; exact readHit_answers i hi
  | readMiss comp _ => rw [← show v.back = w from hv]; exact readMiss_answers i hi
  | readNone _ => rw [← show v.back = w from hv]; exact readNone_answers i hi
  | _ => simp_all

end Chains

def writeBack (cfg : CacheConfig) (hmode : cfg.cacheMode ≠ .readOnly) (ids : Fin n → UInt32) :
    Contract cfg ids where
  Ok := fun _ req => WriteBackRequest req
  Idle := fun w a v => Controlled ids a v ∧ Holds w a v
  run := fun hb hok hi hwf hd =>
    ⟨hb.controlled hi.1, hb.holds hmode hok hi.1 hi.2 hwf hd⟩
  attach := fun h => ⟨⟨rfl, h.1.2.1, h.1.2.2.1, h.1.2.2.2⟩, h.2⟩

theorem writeBack_answers {cfg : CacheConfig} {hmode : cfg.cacheMode ≠ .readOnly}
    {ids : Fin cfg.entriesCount → UInt32} : (writeBack cfg hmode ids).Answers :=
  fun hb _ hi _ _ => hb.answers hi.2

/-- The runs of the write-back guarantee: its requests, and no store call fails. -/
def WriteBackRun {σ : Type} {bs : Nat} (_ : σ) : Serial.Act bs → Prop
  | .accept req _ => WriteBackRequest req
  | .fail _ _ => False
  | _ => True

instance {σ : Type} {bs : Nat} (s : σ) (act : Serial.Act bs) : Decidable (WriteBackRun s act) :=
  match act with
  | .accept req _ => inferInstanceAs (Decidable (WriteBackRequest req))
  | .fail _ _ => inferInstanceAs (Decidable False)
  | .send _ | .finish _ => inferInstanceAs (Decidable True)

/-- Seen through its READs the volume is a flat one that starts as `backData`. -/
structure ServesFlat {cfg : CacheConfig} (backData : Bytes) (s : Serial (policy cfg)) :
    Prop where
  /-- The requests of a block complete in the order they were accepted in. -/
  order : ∀ b (i : Nat) c, (s.completed b)[i]? = some c → (s.accepted b)[i]? = some c.req
  /-- A READ returns what the requests accepted before it leave in the array. -/
  read : ∀ b (i : Nat) c, (s.completed b)[i]? = some c →
    Answers c.req (flat (block cfg.blockSize b backData) ((s.accepted b).take i)) c.data

theorem Inv.servesFlat {cfg : CacheConfig} {ids : Fin cfg.entriesCount → UInt32}
    {K : Contract cfg ids} {backData : Bytes} {s : Serial (policy cfg)}
    (h : Inv K (fun b => block cfg.blockSize b backData) s)
    (ha : Answered (fun b => block cfg.blockSize b backData) s) : ServesFlat backData s := by
  have hlt : ∀ b (i : Nat) c, (s.completed b)[i]? = some c → i < (s.completed b).length :=
    fun b i c hc => (List.getElem?_eq_some_iff.mp hc).1
  refine ⟨?_, ?_⟩
  · intro b i c hc
    have ho : (s.completed b).map Completion.req ++ (s.queue b).map Chain.req = s.accepted b :=
      h.order b
    rw [← ho, getElem?_append_left (by rw [length_map]; exact hlt b i c hc), getElem?_map, hc]
    rfl
  · intro b i c hc
    rw [← h.completed_take i (Nat.le_of_lt (hlt b i c hc))]
    exact ha b i c hc

/-- The blocks look like arrays of bytes that start as `backData` has them. -/
structure RefinesFlat {cfg : CacheConfig} (backData : Bytes) (s : Serial (policy cfg)) : Prop
    extends ServesFlat backData s where
  /-- When a FLUSH or DEMOTE_CACHE chain is through, the backend has the array's content. -/
  flushed : ∀ b c cs, s.queue b = c :: cs → c.ops = [] →
    c.req.ioType = .flush ∨ c.req.ioType = .demoteCache →
    block cfg.blockSize b s.pol.backData
      = flat (block cfg.blockSize b backData) ((s.accepted b).take (s.completed b).length)
  /-- A block with chains can go on, as long as every slot number passes the assertion. -/
  progress : cfg.entriesCount ≤ 2 ^ 30 + 1 → ∀ b, s.queue b ≠ [] →
    ∃ act s', (act = .send b ∨ act = .finish b) ∧ s.step act = some s'

section Refinement

variable {cfg : CacheConfig} {cacheData backData : Bytes} {s : Serial (policy cfg)}

theorem writeBack_reachable (hmode : cfg.cacheMode ≠ .readOnly)
    (hr : Reachable Serial.step WriteBackRun
      (Serial.start (P := policy cfg) (fresh cfg cacheData backData)) s) :
    Inv (writeBack cfg hmode fun k => (newEntries cfg.entriesCount k).entryId)
        (fun b => block cfg.blockSize b backData) s
      ∧ Answered (fun b => block cfg.blockSize b backData) s := by
  refine Answered.reachable (newEntries_injective cfg) writeBack_answers ?_ (fun _ => rfl)
    (hr.mono ?_)
  · exact fresh_inv cfg cacheData backData _ fun b => ⟨⟨rfl, rfl, rfl, rfl⟩, rfl⟩
  · intro s act ha
    cases act with
    | accept req _ | fail b r => exact ha
    | _ => trivial

theorem newEntries_le_maxBlockId (h : cfg.entriesCount ≤ 2 ^ 30 + 1)
    (k : Fin cfg.entriesCount) : (newEntries cfg.entriesCount k).entryId ≤ maxBlockId := by
  rw [UInt32.le_iff_toNat_le, newEntries_toNat]
  show cfg.entriesCount - 1 - k ≤ 2 ^ 30
  omega

end Refinement

/-- **The write-back cache refines the flat volume, in every run.** -/
theorem refinesFlat_reachable (cfg : CacheConfig) (hmode : cfg.cacheMode ≠ .readOnly)
    (cacheData backData : Bytes) (s : Serial (policy cfg))
    (hr : Reachable Serial.step WriteBackRun
      (Serial.start (P := policy cfg) (fresh cfg cacheData backData)) s) :
    RefinesFlat backData s := by
  obtain ⟨hinv, hans⟩ := writeBack_reachable hmode hr
  refine ⟨hinv.servesFlat hans, ?_, fun hn b hq => hinv.progress (newEntries_le_maxBlockId hn) hq⟩
  · intro b c cs hq hops hio
    obtain ⟨hblk, a, z, hbusy⟩ := hinv.busy hq
    obtain ⟨a₀, done, m, v, hb, _, _, hi, hwf, _, _, hv, _⟩ := hbusy.running
    rw [hops, append_nil] at hb
    rw [hblk c mem_cons_self] at hv
    rw [hv.back, hb.flushed hio hi.1 hi.2 hwf, ← hinv.completed_take _ (Nat.le_refl _), take_length]

/-- A WRITE, a DEMOTE_CACHE and a READ of the block they left on the backend. -/
theorem refinesFlat_demoted : ∃ s : Serial (policy (smallCache 0 .writeBack)),
    RefinesFlat (fun _ => 0) s ∧ (s.completed 0).length = 3
      ∧ ((s.completed 0)[2]?.map fun c => (c.req.ioType, c.data 0, c.data 1))
          = some (.read, 7, 7) := by
  have hrun : (run Serial.step WriteBackRun (smallStart 0 .writeBack)
      [.accept (wholeRequest .write 0 7) (fun _ => 0),
        .accept (wholeRequest .demoteCache 0 0) (fun _ => 0),
        .send 0, .send 0, .send 0, .finish 0,
        .send 0, .send 0, .send 0, .send 0, .send 0, .send 0, .finish 0,
        .accept (wholeRequest .read 0 0) (fun _ => 0),
        .send 0, .send 0, .send 0, .send 0, .finish 0]).map
      (fun s => decide ((s.completed 0).length = 3
        ∧ ((s.completed 0)[2]?.map fun c => (c.req.ioType, c.data 0, c.data 1))
          = some (.read, 7, 7))) = some true := by decide +kernel
  obtain ⟨s, hr, hp⟩ := Reachable.of_run_decide hrun
  exact ⟨s, refinesFlat_reachable _ (by decide) _ _ s hr, hp⟩

end HDCS.Proof
