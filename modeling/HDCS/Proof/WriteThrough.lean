import HDCS.Proof.ReadOnly

/-!
# Write-through

With a timeout of zero a WRITE is sent to the slot and to the backend, and both
are written from the client's buffer. A WRITE of a whole block leaves that buffer
alone, so slot and backend agree afterwards.

A partial WRITE does not. For a cached block it reads the slot *into the client's
buffer* and writes the backend from there, so the payload is lost. For a block
that takes a free entry it promotes only the range it is about to overwrite, to
the wrong place of the scratch block, and writes the scratch block to the slot:
the backend is right, the slot is not.

The pieces of one request share the client's buffer, and the slot is read into it whole, so
such a WRITE also destroys what the next piece is about to write to its own block. The
chains of the model have a buffer each. That is the same as long as no WRITE stores to its
buffer, and this file proves that none does where no partial WRITE finds its block cached
(`BuffersKept`).
-/

namespace HDCS.Proof

open Lib LruList CachePolicy Function Lib.Machine

variable {n : Nat}

section Chains

variable {cfg : CacheConfig} {req : BlockRequest cfg.blockSize} {ids : Fin n → UInt32}
  {a a' : Option (Fin n)} {ops : List (BlockOp n)} {w : Bytes} {m : Bufs} {v : Cell} {e : Fin n}
  {comp : Option TimeoutComp} {x : Bufs × Cell}

theorem back_updateLRU : (Cell.send cfg req (.updateLRU (some e) e comp) x).2.back = x.2.back := by
  simp only [Cell.send]
  split <;> rfl

theorem slot_updateLRU : (Cell.send cfg req (.updateLRU (some e) e comp) x).2.slot = x.2.slot := by
  simp only [Cell.send]
  split <;> rfl

theorem recordWrite_back (ht : cfg.timeoutNanoseconds = 0) :
    (Cell.run cfg req (recordWrite cfg e (ids e) comp) x).2.back
      = memcpy x.2.back req.offset x.1.dataPtr 0 req.size := by
  unfold recordWrite
  rw [if_neg (by simp [ht])]
  simp only [Cell.run_cons, Cell.run_nil]
  exact back_updateLRU

theorem recordWrite_slot :
    (Cell.run cfg req (recordWrite cfg e (ids e) comp) x).2.slot = x.2.slot := by
  unfold recordWrite
  split
  · simp only [Cell.run_cons, Cell.run_nil]
    exact slot_updateLRU
  · simp only [Cell.run_cons, Cell.run_nil]
    exact slot_updateLRU

theorem readHit_back :
    (Cell.run cfg req (readHit cfg req e (ids e) comp) (m, v)).2.back = v.back := by
  unfold readHit
  split
  · simp only [Cell.run_cons, Cell.run_nil]
    exact back_updateLRU
  · simp only [Cell.run_cons, Cell.run_nil]
    exact back_updateLRU

theorem readMiss_back :
    (Cell.run cfg req (readMiss cfg req e (ids e) comp) (m, v)).2.back = v.back := by
  unfold readMiss
  split
  · simp only [Cell.run_cons, Cell.run_nil]
    exact back_updateLRU
  · simp only [Cell.run_cons, Cell.run_nil]
    exact back_updateLRU

theorem writeHit_back (ht : cfg.timeoutNanoseconds = 0) (hw : req.Whole) :
    (Cell.run cfg req (writeHit cfg req e (ids e) comp) (m, v)).2.back
      = memcpy v.back req.offset m.dataPtr 0 req.size := by
  unfold writeHit
  rw [if_neg (by rw [show req.size = cfg.blockSize from hw]; omega), Cell.run_cons]
  exact recordWrite_back ht

theorem writeMiss_back (ht : cfg.timeoutNanoseconds = 0) :
    (Cell.run cfg req (writeMiss cfg req e (ids e) comp) (m, v)).2.back
      = memcpy v.back req.offset m.dataPtr 0 req.size := by
  unfold writeMiss
  split
  · rw [Cell.run_append]
    exact recordWrite_back ht
  · rw [Cell.run_cons]
    exact recordWrite_back ht

theorem readHit_slot :
    (Cell.run cfg req (readHit cfg req e (ids e) comp) (m, v)).2.slot = v.slot := by
  unfold readHit
  split
  · simp only [Cell.run_cons, Cell.run_nil]
    exact slot_updateLRU
  · simp only [Cell.run_cons, Cell.run_nil]
    exact slot_updateLRU

theorem writeHit_slot (hw : req.Whole) :
    (Cell.run cfg req (writeHit cfg req e (ids e) comp) (m, v)).2.slot
      = memcpy v.slot 0 m.dataPtr 0 cfg.blockSize := by
  unfold writeHit
  rw [if_neg (by rw [show req.size = cfg.blockSize from hw]; omega), Cell.run_cons]
  exact recordWrite_slot

theorem writeMiss_slot (hw : req.Whole) :
    (Cell.run cfg req (writeMiss cfg req e (ids e) comp) (m, v)).2.slot
      = memcpy v.slot 0 m.dataPtr 0 cfg.blockSize := by
  unfold writeMiss
  rw [if_neg (by rw [show req.size = cfg.blockSize from hw]; omega), Cell.run_cons]
  exact recordWrite_slot

/-! ## The client's buffer -/

def KeepsClient (op : BlockOp n) : Prop :=
  ∀ (cfg : CacheConfig) (req : BlockRequest cfg.blockSize) (x : Bufs × CacheState n),
    (send cfg req op x).1.dataPtr = x.1.dataPtr

theorem recordWrite_keepsClient {id : UInt32} :
    ∀ op ∈ recordWrite cfg e id comp, KeepsClient op := by
  unfold recordWrite
  split_ifs
  · simp [KeepsClient, send]
  · simp [KeepsClient, send]

theorem map_keepsClient {s : CacheState n} (hw : req.ioType = .write)
    (hok : req.Whole ∨ s.entry req.block = none) : ∀ op ∈ (map cfg req s).1, KeepsClient op := by
  have hwhole : ∀ {d : Buf} {k : Nat}, KeepsClient (n := n) (.writeBlockToCache k d) :=
    fun _ _ _ => rfl
  have haround : ∀ op ∈ [BlockOp.writeToBackend (n := n) .dataPtr], KeepsClient op := by
    simp [KeepsClient, send]
  simp only [map, hw]
  split_ifs
  · exact haround
  cases he : s.entry req.block with
  | some e =>
    have hsize : req.size = cfg.blockSize := hok.resolve_right (by rw [he]; simp)
    dsimp only
    unfold writeHit
    rw [if_neg (by omega)]
    exact List.forall_mem_cons.mpr ⟨hwhole, recordWrite_keepsClient⟩
  | none =>
    dsimp only
    cases getHead s.freeLru with
    | none => exact haround
    | some e =>
      dsimp only
      unfold writeMiss
      split_ifs
      · refine List.forall_mem_append.mpr ⟨?_, recordWrite_keepsClient⟩
        simp [KeepsClient, send, Bufs.set]
      · exact List.forall_mem_cons.mpr ⟨hwhole, recordWrite_keepsClient⟩

/-! ## The two contracts -/

def DurableRequest {bs : Nat} (a : Option (Fin n)) (req : BlockRequest bs) : Prop :=
  req.ioType = .read ∨ req.ioType = .write ∧ (req.Whole ∨ a = none)

/-- **The backend follows the WRITEs**, as long as no partial WRITE finds its block cached. -/
theorem Built.backed (hmode : cfg.cacheMode ≠ .readOnly) (ht : cfg.timeoutNanoseconds = 0)
    (h : Built cfg ids a req ops a') (hok : DurableRequest a req) (hv : v.back = w)
    (hd : m.dataPtr = req.data) : (Cell.run cfg req ops (m, v)).2.back = applyWrite req w := by
  have hio : req.ioType = .read ∨ req.ioType = .write := hok.imp id And.left
  have hsame : req.ioType = .read → applyWrite req w = w :=
    fun h => applyWrite_of_ne (by rw [h]; simp)
  have hwrite : req.ioType = .write →
      applyWrite req w = memcpy v.back req.offset m.dataPtr 0 req.size := by
    intro h
    rw [applyWrite_write h, hv, hd]
  cases h with
  | readHit comp hr => rw [hsame hr, readHit_back]; exact hv
  | readMiss comp hr => rw [hsame hr, readMiss_back]; exact hv
  | readNone hr => rw [hsame hr]; exact hv
  | writeReadOnly _ hro => exact absurd hro hmode
  | writeHit comp hw _ =>
    rcases hok with hr | ⟨_, hwhole | hnone⟩
    · rw [hw] at hr; cases hr
    · rw [hwrite hw]; exact writeHit_back ht hwhole
    · cases hnone
  | writeMiss comp hw _ => rw [hwrite hw]; exact writeMiss_back ht
  | writeNone hw _ => rw [hwrite hw]; rfl
  | _ => simp_all

def WholeRequest {bs : Nat} (req : BlockRequest bs) : Prop :=
  req.ioType = .read ∨ req.ioType = .write ∧ req.Whole

theorem WholeRequest.durable {bs : Nat} {req : BlockRequest bs} (h : WholeRequest req) :
    DurableRequest a req :=
  h.imp id fun h => ⟨h.1, Or.inl h.2⟩

/-- **The slot follows them too** where every WRITE is whole. -/
theorem Built.slotted (hmode : cfg.cacheMode ≠ .readOnly)
    (h : Built cfg ids a req ops (some e)) (hok : WholeRequest req) (hv : Agrees w a v)
    (hwf : v.Wf cfg.blockSize) (hd : m.dataPtr = req.data) :
    (Cell.run cfg req ops (m, v)).2.slot = applyWrite req w := by
  have hio : req.ioType = .read ∨ req.ioType = .write := hok.imp id And.left
  have hsame : req.ioType = .read → applyWrite req w = w :=
    fun h => applyWrite_of_ne (by rw [h]; simp)
  have hwhole : req.ioType = .write → req.Whole := by
    intro hw
    rcases hok with hr | ⟨_, h⟩
    · rw [hw] at hr; cases hr
    · exact h
  cases h with
  | readHit comp hr => rw [hsame hr, ← hv.1]; exact readHit_slot
  | readMiss comp hr =>
    rw [hsame hr, ← show v.back = w from hv]
    exact (readMiss_slot hwf).1
  | writeReadOnly _ hro => exact absurd hro hmode
  | writeHit comp hw _ =>
    rw [Whole.applyWrite_eq hw (hwhole hw), ← hv.1, ← hd]
    exact writeHit_slot (hwhole hw)
  | writeMiss comp hw _ =>
    rw [Whole.applyWrite_eq hw (hwhole hw), ← show v.back = w from hv, ← hd,
      writeMiss_slot (hwhole hw)]
    exact memcpy_whole hwf.slot hwf.back
  | _ => simp_all

end Chains

section Contracts

variable (cfg : CacheConfig) (hmode : cfg.cacheMode ≠ .readOnly)
  (ht : cfg.timeoutNanoseconds = 0) (ids : Fin n → UInt32)

def durable : Contract cfg ids where
  Ok := DurableRequest
  Idle := fun w _ v => v.back = w
  run := fun hb hok hi _ hd => hb.backed hmode ht hok hi hd
  attach := fun h => h

def writeThrough : Contract cfg ids where
  Ok := fun _ req => WholeRequest req
  Idle := Agrees
  run := fun {_ _ _ a' _ _ _} hb hok hi hwf hd => by
    have hback := hb.backed hmode ht hok.durable hi.back hd
    cases a' with
    | none => exact hback
    | some e => exact ⟨hb.slotted hmode hok hi hwf hd, hback⟩
  attach := fun h => h

end Contracts

/-! ## Runs -/

section Runs

variable {cfg : CacheConfig} {s : Serial (policy cfg)} {b : Nat}

/-- READs and WRITEs without store errors, such that no partial WRITE is mapped while its block
has an entry. -/
def WriteThroughRun (s : Serial (policy cfg)) : Serial.Act cfg.blockSize → Prop
  | .accept req _ =>
    req.ioType = .read ∨ req.ioType = .write ∧ (req.Whole ∨ s.pol.entry req.block = none)
  | .fail _ _ => False
  | _ => True

instance (s : Serial (policy cfg)) (act : Serial.Act cfg.blockSize) :
    Decidable (WriteThroughRun s act) :=
  match act with
  | .accept _ _ => inferInstanceAs (Decidable (_ ∨ _ ∧ (_ ∨ _)))
  | .fail _ _ => inferInstanceAs (Decidable False)
  | .send _ | .finish _ => inferInstanceAs (Decidable True)

/-- What a WRITE of the block leaves on the backend, which started as `backData`. -/
structure DurableAt (backData : Bytes) (s : Serial (policy cfg)) (b : Nat) : Prop where
  /-- When a WRITE is through, its range has the payload and the rest what was there before. -/
  written : ∀ c cs, s.queue b = c :: cs → c.ops = [] → c.req.ioType = .write →
    block cfg.blockSize b s.pol.backData
      = memcpy (flat (block cfg.blockSize b backData)
          ((s.accepted b).take (s.completed b).length)) c.req.offset c.req.data 0 c.req.size
  /-- Nothing else is on the backend than what the WRITEs left there. -/
  backed : s.queue b = [] →
    block cfg.blockSize b s.pol.backData = flat (block cfg.blockSize b backData) (s.accepted b)

/-- A block at rest whose status is `FLUSHED` has the same bytes in its slot as on the backend. -/
def AgreesAt (s : Serial (policy cfg)) (b : Nat) : Prop :=
  s.queue b = [] → ∀ e, s.pol.entry b = some e → (s.pol.entries e).status = flushed →
    block cfg.blockSize (s.pol.entries e).entryId.toNat s.pol.cacheData
      = block cfg.blockSize b s.pol.backData

/-- Every WRITE of the block so far was whole. -/
def WholeWrites (s : Serial (policy cfg)) (b : Nat) : Prop :=
  ∀ req ∈ s.accepted b, req.ioType = .write → req.Whole

instance (s : Serial (policy cfg)) (b : Nat) : Decidable (WholeWrites s b) :=
  inferInstanceAs (Decidable (∀ req ∈ s.accepted b, req.ioType = .write → req.Whole))

def BuffersKept (s : Serial (policy cfg)) : Prop :=
  ∀ b, ∀ c ∈ s.queue b, c.req.ioType = .write →
    c.bufs.dataPtr = c.req.data ∧ ∀ op ∈ c.ops, KeepsClient op

theorem BuffersKept.step {s' : Serial (policy cfg)} {act : Serial.Act cfg.blockSize}
    (h : BuffersKept s) (hok : WriteThroughRun s act) (hs : s.step act = some s') :
    BuffersKept s' := by
  -- a step replaces the queue of one block
  have key : ∀ {b : Nat} {q : List (Chain cfg.entriesCount cfg.blockSize)},
      (∀ c ∈ q, c.req.ioType = .write →
        c.bufs.dataPtr = c.req.data ∧ ∀ op ∈ c.ops, KeepsClient op) →
      ∀ b', ∀ c ∈ update s.queue b q b', c.req.ioType = .write →
        c.bufs.dataPtr = c.req.data ∧ ∀ op ∈ c.ops, KeepsClient op := by
    intro b q hq b'
    by_cases hb : b' = b
    · subst hb
      rw [update_self]
      exact hq
    · rw [update_of_ne hb]
      exact h b'
  rcases Serial.step_cases hs with ⟨req, scratch, rfl, _, rfl⟩
    | ⟨b, c, cs, op, ops, rfl, hq, _, hops, _, rfl⟩ | ⟨_, _, _, _, _, _, rfl, _⟩
    | ⟨b, c, cs, rfl, hq, _, _, rfl⟩
  · refine key fun c hc hw => ?_
    rcases List.mem_append.mp hc with hc | hc
    · exact h _ c hc hw
    · obtain rfl := List.mem_singleton.mp hc
      rcases hok with hr | ⟨_, hok⟩
      · cases hw.symm.trans hr
      · exact ⟨rfl, map_keepsClient hw hok⟩
  · have hold := List.forall_mem_cons.mp (hq ▸ h b)
    refine key (List.forall_mem_cons.mpr ⟨fun hw => ?_, hold.2⟩)
    obtain ⟨hdata, hkeeps⟩ := hold.1 hw
    rw [hops] at hkeeps
    obtain ⟨hop, hkeeps⟩ := List.forall_mem_cons.mp hkeeps
    exact ⟨(hop cfg c.req (c.bufs, s.pol)).trans hdata, hkeeps⟩
  · exact hok.elim
  · exact key (List.forall_mem_cons.mp (hq ▸ h b)).2

section Block

variable {ids : Fin cfg.entriesCount → UInt32} {K : Contract cfg ids} {w : Bytes}
  {pol : CacheState cfg.entriesCount} {c : Chain cfg.entriesCount cfg.blockSize}
  {cs : List (Chain cfg.entriesCount cfg.blockSize)}

theorem BlockInv.back_of_ended (hK : ∀ w a v, K.Idle w a v → v.back = w)
    (h : BlockInv K pol b w (c :: cs)) (hops : c.ops = []) :
    block cfg.blockSize b pol.backData = applyWrite c.req w := by
  obtain ⟨hblk, a, z, hbusy⟩ := h
  obtain ⟨a₀, done, m, v, hb, _, hok, hi, hwf, hd, _, hv, _⟩ := hbusy.running
  rw [hops, List.append_nil] at hb
  rw [hblk c List.mem_cons_self] at hv
  exact hv.back.trans (hK _ _ _ (K.run hb hok hi hwf hd))

theorem BlockInv.back_of_nil (hK : ∀ w a v, K.Idle w a v → v.back = w)
    (h : BlockInv K pol b w []) : block cfg.blockSize b pol.backData = w := by
  obtain ⟨v, hi, _, hv, _⟩ := h
  exact hv.back.trans (hK _ _ _ hi)

end Block

structure Through (hmode : cfg.cacheMode ≠ .readOnly) (ht : cfg.timeoutNanoseconds = 0)
    (ids : Fin cfg.entriesCount → UInt32) (backData : Bytes) (b : Nat) (s : Serial (policy cfg)) :
    Prop where
  control : Inv (control cfg ids) (fun b => block cfg.blockSize b backData) s
  durable : BlockInv (durable cfg hmode ht ids) s.pol b
    (flat (block cfg.blockSize b backData) ((s.completed b).map Completion.req)) (s.queue b)
  agrees : WholeWrites s b → BlockInv (writeThrough cfg hmode ht ids) s.pol b
    (flat (block cfg.blockSize b backData) ((s.completed b).map Completion.req)) (s.queue b)

section Through

variable {hmode : cfg.cacheMode ≠ .readOnly} {ht : cfg.timeoutNanoseconds = 0}
  {ids : Fin cfg.entriesCount → UInt32} {backData : Bytes} {s' : Serial (policy cfg)}
  {act : Serial.Act cfg.blockSize}

theorem WholeWrites.of_step (hs : s.step act = some s') (h : WholeWrites s' b) :
    WholeWrites s b ∧ ∀ req scratch, act = .accept req scratch → req.block = b →
      req.ioType = .write → req.Whole := by
  rcases Serial.step_cases hs with ⟨req, scratch, rfl, _, rfl⟩
    | ⟨_, _, _, _, _, rfl, _, _, _, _, rfl⟩ | ⟨_, _, _, _, _, _, rfl, _, _, _, _, _, rfl⟩
    | ⟨_, _, _, rfl, _, _, _, rfl⟩
  · unfold WholeWrites at h
    simp only [Serial.accept] at h
    by_cases hb : b = req.block
    · subst hb
      rw [update_self, List.forall_mem_append] at h
      refine ⟨h.1, fun req' _ heq _ => ?_⟩
      obtain ⟨rfl, _⟩ := Serial.Act.accept.inj heq
      exact h.2 req (List.mem_singleton_self req)
    · rw [update_of_ne hb] at h
      refine ⟨h, fun req' _ heq hb' => ?_⟩
      obtain ⟨rfl, _⟩ := Serial.Act.accept.inj heq
      exact absurd hb'.symm hb
  · exact ⟨h, fun _ _ heq => by cases heq⟩
  · exact ⟨h, fun _ _ heq => by cases heq⟩
  · exact ⟨h, fun _ _ heq => by cases heq⟩

/-- **One step keeps both contracts of the block.** -/
theorem Through.step (hinj : Injective ids) (h : Through hmode ht ids backData b s)
    (hok : WriteThroughRun s act) (hs : s.step act = some s') :
    Through hmode ht ids backData b s' := by
  have hallows : (HDCS.Proof.control cfg ids).Allows s act := by
    cases act with
    | fail _ _ => exact hok
    | _ => trivial
  refine ⟨h.control.step hinj hallows hs, ?_, ?_⟩
  · refine h.control.block_step hinj hallows h.durable ?_ hs
    rintro req scratch rfl rfl
    exact hok
  · -- if all WRITEs are whole after the step, they were before it, and so is the new one
    intro hwhole
    obtain ⟨hold, hnew⟩ := hwhole.of_step hs
    refine h.control.block_step hinj hallows (h.agrees hold) ?_ hs
    rintro req scratch rfl hb
    exact hok.imp id fun hw => ⟨hw.1, hnew req scratch rfl hb hw.1⟩

theorem Through.durableAt (h : Through hmode ht ids backData b s) : DurableAt backData s b := by
  have hK : ∀ w a v, (HDCS.Proof.durable cfg hmode ht ids).Idle w a v → v.back = w :=
    fun _ _ _ hi => hi
  have hbase := h.durable
  have hdone : (s.completed b).map Completion.req = (s.accepted b).take (s.completed b).length := by
    rw [← h.control.completed_take _ (Nat.le_refl _), List.take_length]
  refine ⟨?_, ?_⟩
  · intro c cs hq hops hio
    rw [hq] at hbase
    rw [hbase.back_of_ended hK hops, applyWrite_write hio, hdone]
  · intro hq
    rw [hq] at hbase
    have ho : (s.completed b).map Completion.req ++ (s.queue b).map Chain.req = s.accepted b :=
      h.control.order b
    rw [hq, List.map_nil, List.append_nil] at ho
    rw [hbase.back_of_nil hK, ho]

theorem Through.agreesAt (h : Through hmode ht ids backData b s) (hw : WholeWrites s b) :
    AgreesAt s b := by
  intro hq e he _
  have hblock := h.agrees hw
  rw [hq] at hblock
  obtain ⟨v, hi, _, hv, hslot, _⟩ := hblock
  rw [he] at hi hslot
  rw [(hslot e rfl).bytes, hv.back]
  exact hi.1.trans hi.2.symm

theorem Coherent.through {pol : CacheState cfg.entriesCount} (h : Coherent pol)
    (hmode : cfg.cacheMode ≠ .readOnly) (ht : cfg.timeoutNanoseconds = 0) (b : Nat) :
    Through hmode ht (fun e => (pol.entries e).entryId) pol.backData b
      (Serial.start (P := policy cfg) pol) := by
  refine ⟨h.inv_of_atRest fun b => ?_, ?_, fun _ => ?_⟩
  · obtain ⟨v, hc, _, hrest⟩ := h.cell b
    exact ⟨v, hc, hrest⟩
  · obtain ⟨v, _, ha, hrest⟩ := h.cell b
    exact ⟨v, ha.back, hrest⟩
  · obtain ⟨v, _, ha, hrest⟩ := h.cell b
    exact ⟨v, ha, hrest⟩

end Through

end Runs

/--
**Write-through is durable and agrees** as long as no partial WRITE finds its block cached: the
backend of every block follows its WRITEs, and so does its slot if every one of them was whole.
The buffer of every WRITE holds its payload to the end.
-/
theorem writesThrough_reachable (cfg : CacheConfig) (hmode : cfg.cacheMode ≠ .readOnly)
    (ht : cfg.timeoutNanoseconds = 0) (pol : CacheState cfg.entriesCount) (hc : Coherent pol)
    (s : Serial (policy cfg))
    (hr : Reachable Serial.step WriteThroughRun (Serial.start (P := policy cfg) pol) s) :
    (∀ b, DurableAt pol.backData s b ∧ (WholeWrites s b → AgreesAt s b))
      ∧ ∀ b, ∀ c ∈ s.queue b, c.req.ioType = .write → c.bufs.dataPtr = c.req.data := by
  constructor
  · intro b
    have h : Through hmode ht (fun e => (pol.entries e).entryId) pol.backData b s :=
      hr.invariant (hc.through hmode ht b) fun _ _ _ h hok hs => h.step hc.ids hok hs
    exact ⟨h.durableAt, h.agreesAt⟩
  · have h : BuffersKept s := hr.invariant (fun _ _ hc => absurd hc List.not_mem_nil)
      fun _ _ _ h hok hs => h.step hok hs
    exact fun b c hc hw => (h b c hc hw).1

/-- The small cache with one slot and no timeout. -/
def smallThrough : CacheConfig := { smallCache 0 .writeBack with timeoutNanoseconds := 0 }

/-- A request for the second byte of block `b`, with `x` in its buffer. -/
def halfRequest (ioType : IoType) (b : Nat) (x : UInt8) : BlockRequest 2 where
  ioType := ioType
  data := fun _ => x
  offset := 1
  size := 1
  block := b
  req := 0
  inBlock := Nat.le_refl 2

/-- A fresh write-through cache over a backend of blocks that hold 3 and 5. -/
abbrev smallThroughStart : Serial (policy smallThrough) :=
  Serial.start (P := policy smallThrough)
    (fresh smallThrough (fun _ => 0) fun i => if i % 2 = 0 then 3 else 5)

/-- Two whole WRITEs of block 0, among partial ones of block 1, which finds no slot. -/
theorem writesThrough_whole : ∃ s : Serial (policy smallThrough),
    (s.completed 0).length = 2 ∧ (s.completed 1).length = 1 ∧ s.pol.entry 0 ≠ none
      ∧ DurableAt (fun i => if i % 2 = 0 then 3 else 5) s 0 ∧ AgreesAt s 0 := by
  have hrun : (run Serial.step WriteThroughRun smallThroughStart
      [.accept (wholeRequest .write 0 7) (fun _ => 0), .send 0, .send 0, .send 0, .send 0,
        .finish 0, .accept (halfRequest .write 1 9) (fun _ => 0), .send 1, .finish 1,
        .accept (wholeRequest .write 0 8) (fun _ => 0), .send 0, .send 0, .send 0, .send 0,
        .finish 0]).map
      (fun s => decide ((s.completed 0).length = 2 ∧ (s.completed 1).length = 1
        ∧ s.pol.entry 0 ≠ none ∧ WholeWrites s 0)) = some true := by decide +kernel
  obtain ⟨s, hr, h0, h1, he, hw⟩ := Reachable.of_run_decide hrun
  have h := writesThrough_reachable smallThrough (by decide) rfl
    (fresh smallThrough (fun _ => 0) fun i => if i % 2 = 0 then 3 else 5)
    (fresh_coherent _ _ _) s hr
  rw [fresh_backData] at h
  exact ⟨s, h0, h1, he, (h.1 0).1, (h.1 0).2 hw⟩

/--
A partial WRITE of block 0 that takes the free entry, and a second one that finds
the block cached: after the first one slot and backend differ, and when the second
one is through the backend does not have its payload. Besides, it has changed the byte of
the client's buffer behind its piece, where the payload of the next block is in a request that
goes on there.
-/
theorem not_writesThrough_partial :
    (∃ s : Serial (policy smallThrough),
      Reachable Serial.step ReadWriteRun smallThroughStart s ∧ ¬ AgreesAt s 0)
    ∧ ∃ s : Serial (policy smallThrough),
      Reachable Serial.step ReadWriteRun smallThroughStart s
        ∧ ¬ DurableAt (fun i => if i % 2 = 0 then 3 else 5) s 0
        ∧ ∃ c ∈ s.queue 0, c.req.size = 1 ∧ c.bufs.dataPtr 1 ≠ c.req.data 1 := by
  constructor
  · have hrun : (run Serial.step ReadWriteRun smallThroughStart
        [.accept (halfRequest .write 0 9) (fun _ => 0), .send 0, .send 0, .send 0, .send 0,
          .send 0, .send 0, .send 0, .finish 0]).map
        (fun s => decide ((s.queue 0).length = 0 ∧ (s.pol.entry 0 = some ⟨0, by decide⟩
          ∧ (s.pol.entries ⟨0, by decide⟩).status = flushed)
          ∧ block 2 (s.pol.entries ⟨0, by decide⟩).entryId.toNat s.pol.cacheData 0
            ≠ block 2 0 s.pol.backData 0)) = some true := by decide +kernel
    obtain ⟨s, hr, hq, ⟨he, hst⟩, hne⟩ := Reachable.of_run_decide hrun
    refine ⟨s, hr, fun h => hne ?_⟩
    exact congrFun (h (List.eq_nil_of_length_eq_zero hq) _ he hst) 0
  · have hrun : (run Serial.step ReadWriteRun smallThroughStart
        [.accept (halfRequest .write 0 9) (fun _ => 0), .send 0, .send 0, .send 0, .send 0,
          .send 0, .send 0, .send 0, .finish 0,
          .accept (halfRequest .write 0 4) (fun _ => 0), .send 0, .send 0, .send 0, .send 0,
          .send 0, .send 0, .send 0]).map
        (fun s => match s.queue 0 with
          | [] => false
          | c :: _ => decide (c.ops = [] ∧ c.req.ioType = .write ∧ block 2 0 s.pol.backData 1
              ≠ memcpy (flat (block 2 0 fun i => if i % 2 = 0 then 3 else 5)
                ((s.accepted 0).take (s.completed 0).length)) c.req.offset c.req.data 0
                c.req.size 1 ∧ c.req.size = 1 ∧ c.bufs.dataPtr 1 ≠ c.req.data 1)) = some true := by
      decide +kernel
    obtain ⟨s, hr, hp⟩ := Reachable.of_run_test hrun
    cases hq : s.queue 0 with
    | nil =>
      rw [hq] at hp
      exact Bool.noConfusion hp
    | cons c cs =>
      rw [hq] at hp
      obtain ⟨hops, hio, hne, hbehind⟩ := of_decide_eq_true hp
      exact ⟨s, hr, fun h => hne (congrFun (h.written c cs hq hops hio) 1), c,
        hq ▸ List.mem_cons_self, hbehind⟩

end HDCS.Proof
