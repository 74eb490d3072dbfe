import HDCS.Proof.WriteBack

/-!
# Read-only mode

In read-only mode a WRITE goes to the backend and nowhere else, while a READ
that finds the block cached is served from its slot. The two agree as long as
the block is not cached when the WRITE is mapped: then the content is on the
backend, and a later READ brings it in. Nothing invalidates the slot of a block
that *is* cached, so a WRITE to such a block leaves every later READ of it with
the old bytes.
-/

namespace HDCS.Proof

open Lib LruList CachePolicy Lib.Machine

variable {n : Nat}

def Agrees (w : Bytes) : Option (Fin n) → Cell → Prop
  | none, v => v.back = w
  | some _, v => v.slot = w ∧ v.back = w

theorem Agrees.holds {w : Bytes} {a : Option (Fin n)} {v : Cell} (h : Agrees w a v) :
    Holds w a v := by
  cases a with
  | none => exact h
  | some e => exact ⟨h.1, fun _ => h.2⟩

theorem Agrees.back {w : Bytes} {a : Option (Fin n)} {v : Cell} (h : Agrees w a v) :
    v.back = w := by
  cases a with
  | none => exact h
  | some e => exact h.2

section Chains

variable {cfg : CacheConfig} {req : BlockRequest cfg.blockSize} {ids : Fin n → UInt32}
  {a a' : Option (Fin n)} {ops : List (BlockOp n)} {w : Bytes} {m : Bufs} {v : Cell} {e : Fin n}
  {comp : Option TimeoutComp} {x : Bufs × Cell}

theorem Agrees.touch (h : Agrees w (some e) x.2) :
    Agrees w (some e) (Cell.send cfg req (.updateLRU (some e) e comp) x).2 := by
  simp only [Cell.send]
  split <;> exact h

def ReadOnlyRequest {bs : Nat} (a : Option (Fin n)) (req : BlockRequest bs) : Prop :=
  req.ioType = .read ∨ req.ioType = .write ∧ a = none

/-- **Every chain of the read-only guarantee keeps backend and slot in agreement.** -/
theorem Built.agrees (hmode : cfg.cacheMode = .readOnly) (h : Built cfg ids a req ops a')
    (hok : ReadOnlyRequest a req) (hv : Agrees w a v) (hwf : v.Wf cfg.blockSize)
    (hd : m.dataPtr = req.data) :
    Agrees (applyWrite req w) a' (Cell.run cfg req ops (m, v)).2 := by
  have hio : req.ioType = .read ∨ req.ioType = .write := hok.imp id And.left
  have hsame : req.ioType = .read → applyWrite req w = w :=
    fun h => applyWrite_of_ne (by rw [h]; simp)
  cases h with
  | readHit comp hr =>
    rw [hsame hr]
    unfold CachePolicy.readHit
    split
    · simp only [Cell.run_cons, Cell.run_nil]
      exact Agrees.touch hv
    · simp only [Cell.run_cons, Cell.run_nil]
      exact Agrees.touch hv
  | readMiss comp hr =>
    rw [hsame hr, ← show v.back = w from hv]
    unfold CachePolicy.readMiss
    split
    · simp only [Cell.run_cons, Cell.run_nil]
      exact Agrees.touch ⟨memcpy_copied hwf.slot hwf.back, rfl⟩
    · simp only [Cell.run_cons, Cell.run_nil]
      exact Agrees.touch ⟨memcpy_copied hwf.slot hwf.back, rfl⟩
  | readNone hr => rw [hsame hr]; exact hv
  | writeReadOnly hw _ =>
    rcases hok with hr | ⟨_, rfl⟩
    · rw [hw] at hr; cases hr
    · rw [applyWrite_write hw, ← show v.back = w from hv, ← hd]; rfl
  | writeHit _ _ hro | writeMiss _ _ hro | writeNone _ hro => exact absurd hmode hro
  | _ => simp_all

end Chains

def readOnly (cfg : CacheConfig) (hmode : cfg.cacheMode = .readOnly) (ids : Fin n → UInt32) :
    Contract cfg ids where
  Ok := fun a req => ReadOnlyRequest a req
  Idle := fun w a v => Controlled ids a v ∧ Agrees w a v
  run := fun hb hok hi hwf hd => ⟨hb.controlled hi.1, hb.agrees hmode hok hi.2 hwf hd⟩
  attach := fun h => ⟨⟨rfl, h.1.2.1, h.1.2.2.1, h.1.2.2.2⟩, h.2⟩

theorem readOnly_answers {cfg : CacheConfig} {hmode : cfg.cacheMode = .readOnly}
    {ids : Fin cfg.entriesCount → UInt32} : (readOnly cfg hmode ids).Answers :=
  fun hb _ hi _ _ => hb.answers hi.2.holds

/-- A cache between two runs, with nothing in it that the backend does not have. -/
structure Coherent {cfg : CacheConfig} (s : CacheState cfg.entriesCount) : Prop where
  ids : Function.Injective fun e => (s.entries e).entryId
  nodup : ListsNodup s
  pool : Pool s.entry s.freeLru
  free : ∀ e ∈ s.freeLru, (s.entries e).status = unpromoted
  idle : ∀ b, s.inDiscardProcess b = false
  settled : ∀ b, Settled s b
  status : ∀ b e, s.entry b = some e →
    (s.entries e).status = promotedUnflushed ∨ (s.entries e).status = flushed
  agree : ∀ b e, s.entry b = some e →
    block cfg.blockSize (s.entries e).entryId.toNat s.cacheData = block cfg.blockSize b s.backData

theorem fresh_coherent (cfg : CacheConfig) (cacheData backData : Bytes) :
    Coherent (fresh cfg cacheData backData) := by
  have hinv := fresh_inv cfg cacheData backData
    (control cfg fun k => (newEntries cfg.entriesCount k).entryId) fun b => ⟨rfl, rfl, rfl, rfl⟩
  have hentry := fresh_entry cfg cacheData backData
  refine ⟨?_, hinv.nodup, ?_, hinv.freeStatus, ?_, fun b => hinv.settled rfl, ?_, ?_⟩
  · have hids : (fun e => ((fresh cfg cacheData backData).entries e).entryId)
        = fun k => (newEntries cfg.entriesCount k).entryId := funext hinv.ids
    rw [hids]; exact newEntries_injective cfg
  · exact hinv.pool
  · exact fun b => congrFun (new_paired cfg cacheData (fun _ => 0) backData).same.1 b
  · intro b e he; rw [hentry] at he; cases he
  · intro b e he; rw [hentry] at he; cases he

section ReadOnly

variable {cfg : CacheConfig} {pol : CacheState cfg.entriesCount}

theorem Coherent.cell (h : Coherent pol) (b : Nat) :
    ∃ v, Controlled (fun e => (pol.entries e).entryId) (pol.entry b) v
      ∧ Agrees (block cfg.blockSize b pol.backData) (pol.entry b) v ∧ v.Wf cfg.blockSize
      ∧ Shows cfg pol b v ∧ (∀ e ∈ pol.entry b, Slot cfg pol e v)
      ∧ pol.inDiscardProcess b = false := by
  have hset := h.settled b
  unfold Settled at hset
  cases he : pol.entry b with
  | none =>
    rw [he] at hset
    refine ⟨⟨block cfg.blockSize b pol.backData, unpromoted, block cfg.blockSize b pol.backData,
      0, false, false⟩, ⟨rfl, rfl, rfl, rfl⟩, rfl, ⟨clipped_block _ _ _, clipped_block _ _ _⟩,
      ⟨rfl, hset.2.2, ?_, ?_⟩, fun e h => absurd h (by simp), h.idle b⟩
    · simp [hset.2.1]
    · simp [hset.1]
  | some e =>
    rw [he] at hset
    obtain ⟨hone, hdirty, hword⟩ := hset
    refine ⟨⟨block cfg.blockSize b pol.backData, (pol.entries e).status,
      block cfg.blockSize b pol.backData, pol.blockMeta b, decide (b ∈ pol.cleanLru),
      decide (b ∈ pol.dirtyLru)⟩, ⟨?_, hword⟩, ⟨rfl, rfl⟩,
      ⟨clipped_block _ _ _, clipped_block _ _ _⟩, ⟨rfl, rfl, by simp, by simp⟩, ?_, h.idle b⟩
    · rcases hone with ⟨hd, hc⟩ | ⟨hd, hc⟩
      · exact Or.inl ⟨hdirty.mp hd, by simp [hc], by simp [hd]⟩
      · rcases h.status b e he with hst | hst
        · exact absurd (hdirty.mpr hst) hd
        · exact Or.inr ⟨hst, by simp [hc], by simp [hd]⟩
    · intro k hk
      obtain rfl : e = k := Option.some.inj hk
      exact ⟨rfl, h.agree b e he⟩

theorem Coherent.inv_of_atRest (h : Coherent pol)
    {K : Contract cfg fun e => (pol.entries e).entryId}
    (hK : ∀ b, AtRest K pol b (block cfg.blockSize b pol.backData)) :
    Inv K (fun b => block cfg.blockSize b pol.backData) (Serial.start (P := policy cfg) pol) where
  ids := fun _ => rfl
  nodup := h.nodup
  order := fun _ => rfl
  alive := fun _ _ hc => absurd hc List.not_mem_nil
  blocks := hK
  pool := h.pool
  freeStatus := h.free

theorem Coherent.inv (h : Coherent pol) (hmode : cfg.cacheMode = .readOnly) :
    Inv (readOnly cfg hmode fun e => (pol.entries e).entryId)
      (fun b => block cfg.blockSize b pol.backData) (Serial.start (P := policy cfg) pol) := by
  refine h.inv_of_atRest fun b => ?_
  obtain ⟨v, hc, ha, hrest⟩ := h.cell b
  exact ⟨v, ⟨hc, ha⟩, hrest⟩

/-- Runs of READs and WRITEs without store errors. -/
def ReadWriteRun {σ : Type} {bs : Nat} (_ : σ) : Serial.Act bs → Prop
  | .accept req _ => req.ioType = .read ∨ req.ioType = .write
  | .fail _ _ => False
  | _ => True

/-- Such runs in which no WRITE is mapped onto a block that has an entry. -/
def UncachedWriteRun (s : Serial (policy cfg)) : Serial.Act cfg.blockSize → Prop
  | .accept req _ => ReadOnlyRequest (s.pol.entry req.block) req
  | .fail _ _ => False
  | _ => True

instance {σ : Type} {bs : Nat} (s : σ) (act : Serial.Act bs) : Decidable (ReadWriteRun s act) :=
  match act with
  | .accept _ _ => inferInstanceAs (Decidable (_ ∨ _))
  | .fail _ _ => inferInstanceAs (Decidable False)
  | .send _ | .finish _ => inferInstanceAs (Decidable True)

instance (s : Serial (policy cfg)) (act : Serial.Act cfg.blockSize) :
    Decidable (UncachedWriteRun s act) :=
  match act with
  | .accept _ _ => inferInstanceAs (Decidable (_ ∨ _ ∧ _))
  | .fail _ _ => inferInstanceAs (Decidable False)
  | .send _ | .finish _ => inferInstanceAs (Decidable True)

end ReadOnly

/--
**A read-only cache never serves stale data in a run whose WRITEs all go to
blocks that are not cached.**
-/
theorem readOnly_servesFlat (cfg : CacheConfig) (hmode : cfg.cacheMode = .readOnly)
    (pol : CacheState cfg.entriesCount) (hc : Coherent pol) (s : Serial (policy cfg))
    (hr : Reachable Serial.step UncachedWriteRun (Serial.start (P := policy cfg) pol) s) :
    ServesFlat pol.backData s := by
  have hr' : Reachable Serial.step
      (readOnly cfg hmode fun e => (pol.entries e).entryId).Allows
      (Serial.start (P := policy cfg) pol) s := by
    refine hr.mono fun s act ha => ?_
    cases act with
    | accept req _ | fail b r => exact ha
    | _ => trivial
  obtain ⟨hinv, hans⟩ := Answered.reachable hc.ids readOnly_answers (hc.inv hmode)
    (fun _ => rfl) hr'
  exact hinv.servesFlat hans

/-- A WRITE of an uncached block, and two READs of it, the second from the slot. -/
theorem readOnly_write_read_read : ∃ s : Serial (policy (smallCache 0 .readOnly)),
    ServesFlat (fun _ => 0) s
      ∧ ((s.completed 0)[2]?.map fun c => (c.req.ioType, c.data 0)) = some (.read, 7) := by
  have hrun : (run Serial.step UncachedWriteRun (smallStart 0 .readOnly)
      [.accept (wholeRequest .write 0 7) (fun _ => 0), .send 0, .finish 0,
        .accept (wholeRequest .read 0 0) (fun _ => 0), .send 0, .send 0, .send 0, .send 0,
        .finish 0,
        .accept (wholeRequest .read 0 0) (fun _ => 0), .send 0, .send 0, .finish 0]).map
      (fun s => decide (((s.completed 0)[2]?.map fun c => (c.req.ioType, c.data 0))
        = some (.read, 7))) = some true := by decide +kernel
  obtain ⟨s, hr, hp⟩ := Reachable.of_run_decide hrun
  have h := readOnly_servesFlat (smallCache 0 .readOnly) rfl
    (fresh (smallCache 0 .readOnly) (fun _ => 0) (fun _ => 0)) (fresh_coherent _ _ _) s hr
  rw [fresh_backData] at h
  exact ⟨s, h, hp⟩

/-- A READ, a WRITE and a READ of the same block: the last one returns the old bytes. -/
theorem readOnly_stale : ∃ s : Serial (policy (smallCache 0 .readOnly)),
    Reachable Serial.step ReadWriteRun (smallStart 0 .readOnly) s
      ∧ ¬ ServesFlat (fun _ => 0) s := by
  have hrun : (run Serial.step ReadWriteRun (smallStart 0 .readOnly)
      [.accept (wholeRequest .read 0 0) (fun _ => 0), .send 0, .send 0, .send 0, .send 0,
        .finish 0,
        .accept (wholeRequest .write 0 7) (fun _ => 0), .send 0, .finish 0,
        .accept (wholeRequest .read 0 0) (fun _ => 0), .send 0, .send 0, .finish 0]).map
      (fun s => decide (((s.completed 0)[2]?.map fun c =>
          (c.req.ioType, c.req.size, c.data 0,
            flat (block 2 0 fun _ => 0) ((s.accepted 0).take 2) (c.req.offset + 0)))
        = some (.read, 2, 0, 7))) = some true := by decide +kernel
  obtain ⟨s, hr, hp⟩ := Reachable.of_run_test hrun
  refine ⟨s, hr, fun h => ?_⟩
  have hp := of_decide_eq_true hp
  obtain ⟨c, hc, hx⟩ := Option.map_eq_some_iff.mp hp
  simp only [Prod.mk.injEq] at hx
  obtain ⟨hio, hsz, hd, hf⟩ := hx
  have := h.read 0 2 c hc hio 0 (by omega)
  rw [hd] at this
  cases this.trans hf

end HDCS.Proof
