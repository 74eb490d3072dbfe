import HDCS.Proof.WriteBack

/-!
# Crashes

A crash loses the memory and keeps the two files of the cache and the backend.
What survives of a block is decided by its metadata word: the slot it names, or
the backend if it names none. So the question is, for every chain and between any
two of its operations, whether the word names a place that has the content.

It does, everywhere but in one window: a DEMOTE_CACHE chain discards the slot
before it clears the word. In between the word names a slot whose bytes are what
the engine's discard left, and the flushed copy on the backend is not consulted.

`Always` is the way to say "at every crash point of a chain": it walks the chain
and asks for its property before the first operation, after it, and so on.
-/

namespace HDCS.Proof

open Lib LruList CachePolicy Lib.Machine

variable {n : Nat}

/-- What a restart finds of block `b`: the slot its word names, or else the backend. -/
def Survives (cfg : CacheConfig) (s : CacheState n) (b : Nat) (w : Bytes) : Prop :=
  if s.blockMeta b >>> 30 ≠ 0 then
    block cfg.blockSize (s.blockMeta b &&& 0x3FFFFFFF).toNat s.cacheData = w
  else block cfg.blockSize b s.backData = w

def clears : BlockOp n → Bool
  | .updateCacheMeta none _ _ => true
  | _ => false

def demotes : BlockOp n → Bool
  | .demoteBlockToCache _ => true
  | _ => false

def InWindow (ops : List (BlockOp n)) : Bool := ops.any clears && !ops.any demotes

def NamesSlot (ids : Fin n → UInt32) (o : Option (Fin n)) (u : Bytes) (v : Cell) : Prop :=
  ∃ e ∈ o, ∃ st, (st = promotedUnflushed ∨ st = flushed) ∧ v.word = st ||| ids e ∧ v.slot = u

def CrashPoint (cfg : CacheConfig) (ids : Fin n → UInt32) (w : Bytes) (a : Option (Fin n))
    (ops : List (BlockOp n)) (v : Cell) : Prop :=
  if InWindow ops then
    NamesSlot ids (inUse ops a) (memcpy w 0 (cfg.cacheDiscard w) 0 cfg.blockSize) v
  else v.word = 0 ∧ v.back = w ∨ NamesSlot ids (inUse ops a) w v

def Always (cfg : CacheConfig) (req : BlockRequest cfg.blockSize)
    (P : List (BlockOp n) → Cell → Prop) : List (BlockOp n) → Bufs × Cell → Prop
  | [], x => P [] x.2
  | op :: ops, x => P (op :: ops) x.2 ∧ Always cfg req P ops (Cell.send cfg req op x)

theorem Always.point {cfg : CacheConfig} {req : BlockRequest cfg.blockSize}
    {P : List (BlockOp n) → Cell → Prop} {rest done : List (BlockOp n)} {x : Bufs × Cell}
    (h : Always cfg req P (done ++ rest) x) : P rest (Cell.run cfg req done x).2 := by
  induction done generalizing x with
  | nil =>
    cases rest with
    | nil => exact h
    | cons op ops => exact h.1
  | cons op done ih => exact ih h.2

/-! ## The crash points of every chain that is not a WRITE -/

section Chains

variable {cfg : CacheConfig} {req : BlockRequest cfg.blockSize} {ids : Fin n → UInt32}
  {a a' : Option (Fin n)} {ops : List (BlockOp n)} {w : Bytes} {m : Bufs} {v : Cell} {e : Fin n}
  {comp : Option TimeoutComp} {x : Bufs × Cell}

theorem CrashPoint.uncached (hops : InWindow ops = false) (hw : v.word = 0) (hb : v.back = w) :
    CrashPoint cfg ids w a ops v := by
  unfold CrashPoint
  rw [if_neg (by simp [hops])]
  exact Or.inl ⟨hw, hb⟩

theorem CrashPoint.cached (hops : InWindow ops = false) (he : e ∈ inUse ops a) {st : BlockStatus}
    (hst : st = promotedUnflushed ∨ st = flushed) (hw : v.word = st ||| ids e)
    (hs : v.slot = w) : CrashPoint cfg ids w a ops v := by
  unfold CrashPoint
  rw [if_neg (by simp [hops])]
  exact Or.inr ⟨e, he, st, hst, hw, hs⟩

theorem updateLRU_word {st : Option (Fin n)} :
    (Cell.send cfg req (.updateLRU st e comp) x).2.word = x.2.word := by
  cases st with
  | none => rfl
  | some e' => simp only [Cell.send]; split <;> rfl

theorem updateLRU_slot {st : Option (Fin n)} :
    (Cell.send cfg req (.updateLRU st e comp) x).2.slot = x.2.slot := by
  cases st with
  | none => rfl
  | some e' => simp only [Cell.send]; split <;> rfl

theorem flush_word {i : Nat} {d : Buf} :
    (Cell.send cfg req (.flushBlockToBackend i e d) x).2.word = x.2.word := by
  simp only [Cell.send]; split <;> rfl

theorem Controlled.status_or (h : Controlled ids (some e) v) :
    v.status = promotedUnflushed ∨ v.status = flushed := h.1.imp And.left And.left

theorem readHit_crash (hc : Controlled ids (some e) v) (hs : v.slot = w) :
    Always cfg req (CrashPoint cfg ids w (some e)) (readHit cfg req e (ids e) comp) (m, v) := by
  have hpoint : ∀ ops : List (BlockOp n), InWindow ops = false → freesOf ops = none →
      CrashPoint cfg ids w (some e) ops v := fun ops hw hf =>
    .cached hw (by unfold inUse; rw [hf]; rfl) hc.status_or hc.2 hs
  unfold readHit
  split
  · refine ⟨hpoint _ rfl rfl, hpoint _ rfl rfl, hpoint _ rfl rfl, hpoint _ rfl rfl, ?_⟩
    exact .cached rfl rfl hc.status_or (updateLRU_word.trans hc.2) (updateLRU_slot.trans hs)
  · refine ⟨hpoint _ rfl rfl, hpoint _ rfl rfl, ?_⟩
    exact .cached rfl rfl hc.status_or (updateLRU_word.trans hc.2) (updateLRU_slot.trans hs)

theorem readMiss_crash (hc : Controlled ids none v) (hb : v.back = w)
    (hwf : v.Wf cfg.blockSize) :
    Always cfg req (CrashPoint cfg ids w (some e)) (readMiss cfg req e (ids e) comp) (m, v) := by
  subst hb
  unfold readMiss
  split
  · refine ⟨.uncached rfl hc.2.1 rfl, .uncached rfl hc.2.1 rfl, .uncached rfl hc.2.1 rfl,
      .uncached rfl hc.2.1 rfl, .uncached rfl hc.2.1 rfl, ?_, ?_⟩
    · exact .cached rfl rfl (Or.inr rfl) rfl (memcpy_copied hwf.slot hwf.back)
    · exact .cached rfl rfl (Or.inr rfl) updateLRU_word
        (updateLRU_slot.trans (memcpy_copied hwf.slot hwf.back))
  · refine ⟨.uncached rfl hc.2.1 rfl, .uncached rfl hc.2.1 rfl, .uncached rfl hc.2.1 rfl, ?_, ?_⟩
    · exact .cached rfl rfl (Or.inr rfl) rfl (memcpy_copied hwf.slot hwf.back)
    · exact .cached rfl rfl (Or.inr rfl) updateLRU_word
        (updateLRU_slot.trans (memcpy_copied hwf.slot hwf.back))

theorem flush_crash (hc : Controlled ids (some e) v) (h : Holds w (some e) v)
    (hwf : v.Wf cfg.blockSize) :
    Always cfg req (CrashPoint cfg ids w (some e)) (flush e (ids e) comp) (m, v) := by
  obtain ⟨_, hs⟩ := @flush_back _ cfg req ids w m v e (ids e).toNat .dataPtr hc h hwf
  unfold flush
  refine ⟨?_, ?_, ?_, ?_⟩
  · exact .cached rfl rfl hc.status_or hc.2 h.1
  · exact .cached rfl rfl hc.status_or (flush_word.trans hc.2) hs
  · exact .cached rfl rfl (Or.inr rfl) rfl hs
  · exact .cached rfl rfl (Or.inr rfl) updateLRU_word (updateLRU_slot.trans hs)

theorem demoteBlockToCache_slot {i : Nat} (hs : x.2.slot = w) :
    (Cell.send cfg req (.demoteBlockToCache i : BlockOp n) x).2.slot
      = memcpy w 0 (cfg.cacheDiscard w) 0 cfg.blockSize := by
  subst hs; rfl

theorem demote_crash (hc : Controlled ids (some e) v) (h : Holds w (some e) v)
    (hwf : v.Wf cfg.blockSize) :
    Always cfg req (CrashPoint cfg ids w none) (demote e (ids e) comp) (m, v) := by
  obtain ⟨hb, hs⟩ := @flush_back _ cfg req ids w m v e (ids e).toNat .dataPtr hc h hwf
  have hslot := @demoteBlockToCache_slot n cfg req w _ (ids e).toNat hs
  unfold demote dropEntry
  refine ⟨?_, ?_, ?_, ?_, ?_, ?_, ?_⟩
  · exact .cached rfl rfl hc.status_or hc.2 h.1
  · exact .cached rfl rfl hc.status_or (flush_word.trans hc.2) hs
  · exact ⟨e, rfl, v.status, hc.status_or, flush_word.trans hc.2, hslot⟩
  · exact ⟨e, rfl, v.status, hc.status_or, flush_word.trans hc.2, hslot⟩
  · exact .uncached rfl rfl hb
  · exact .uncached rfl rfl hb
  · exact .uncached rfl rfl hb

/-- **What a crash finds at any point of a chain of the write-back guarantee but a WRITE.** -/
theorem Built.crash (h : Built cfg ids a req ops a') (hok : WriteBackRequest req)
    (hio : req.ioType ≠ .write) (hc : Controlled ids a v) (hv : Holds w a v)
    (hwf : v.Wf cfg.blockSize) : Always cfg req (CrashPoint cfg ids w a') ops (m, v) := by
  have hkinds : req.ioType = .read ∨ req.ioType = .flush ∨ req.ioType = .demoteCache := by
    rcases hok with h | h | h | h
    · exact Or.inl h
    · exact absurd h.1 hio
    · exact Or.inr (Or.inl h)
    · exact Or.inr (Or.inr h)
  cases h with
  | readHit comp _ => exact readHit_crash hc hv.1
  | readMiss comp _ => exact readMiss_crash hc hv hwf
  | readNone _ => exact ⟨.uncached rfl hc.2.1 hv, .uncached rfl hc.2.1 hv⟩
  | flush comp _ => exact flush_crash hc hv hwf
  | flushNone _ | demoteNone _ => exact .uncached rfl hc.2.1 hv
  | demote comp _ => exact demote_crash hc hv hwf
  | _ => simp_all

end Chains

/-! ## What survives -/

section Survives

variable {cfg : CacheConfig} {ids : Fin n → UInt32} {s : CacheState n} {b : Nat} {u w : Bytes}
  {o a : Option (Fin n)} {v : Cell} {ops : List (BlockOp n)}

theorem survives_of_uncached (hv : Shows cfg s b v) (hw : v.word = 0) :
    Survives cfg s b w ↔ v.back = w := by
  unfold Survives
  rw [if_neg (by rw [hv.word, hw]; decide), hv.back]

theorem survives_of_named (hids : ∀ e, (s.entries e).entryId = ids e)
    (hlt : ∀ e, (ids e).toNat < 2 ^ 30) (hv : Shows cfg s b v) (hs : ∀ e ∈ o, Slot cfg s e v)
    (hn : NamesSlot ids o u v) : Survives cfg s b w ↔ u = w := by
  obtain ⟨e, he, st, hst, hw, rfl⟩ := hn
  have hle : ids e ≤ maxBlockId := UInt32.le_iff_toNat_le.mpr (Nat.le_of_lt (hlt e))
  obtain ⟨h1, h2, _⟩ := word_decode hst hle
  unfold Survives
  rw [hv.word, hw, if_pos h1, h2, Nat.mod_eq_of_lt (hlt e), ← hids e, (hs e he).bytes]

theorem CrashPoint.survives_iff (hids : ∀ e, (s.entries e).entryId = ids e)
    (hlt : ∀ e, (ids e).toNat < 2 ^ 30) (hv : Shows cfg s b v)
    (hs : ∀ e ∈ inUse ops a, Slot cfg s e v) (h : CrashPoint cfg ids w a ops v) :
    Survives cfg s b w ↔
      (InWindow ops = true → memcpy w 0 (cfg.cacheDiscard w) 0 cfg.blockSize = w) := by
  unfold CrashPoint at h
  split at h
  · rename_i hwin
    rw [survives_of_named hids hlt hv hs h]
    exact ⟨fun h _ => h, fun h => h hwin⟩
  · rename_i hwin
    have hsafe : Survives cfg s b w := by
      rcases h with ⟨hw, hb⟩ | h
      · exact (survives_of_uncached hv hw).mpr hb
      · exact (survives_of_named hids hlt hv hs h).mpr rfl
    exact ⟨fun _ h => absurd h hwin, fun _ => hsafe⟩

end Survives

/-- The block is in the window of a DEMOTE_CACHE. -/
def Demoting {cfg : CacheConfig} (s : Serial (policy cfg)) (b : Nat) : Prop :=
  ∃ c cs, s.queue b = c :: cs ∧ InWindow c.ops = true

/-- No WRITE of the block is under way. -/
def NotWriting {cfg : CacheConfig} (s : Serial (policy cfg)) (b : Nat) : Prop :=
  ∀ c cs, s.queue b = c :: cs → c.req.ioType ≠ .write

section Run

variable {cfg : CacheConfig} {ids : Fin cfg.entriesCount → UInt32}
  {hmode : cfg.cacheMode ≠ .readOnly} {w₀ : Nat → Bytes} {s : Serial (policy cfg)} {b : Nat}

theorem Inv.survives_idle (h : Inv (writeBack cfg hmode ids) w₀ s)
    (hlt : ∀ e, (ids e).toNat < 2 ^ 30) (hq : s.queue b = []) :
    Survives cfg s.pol b (flat (w₀ b) ((s.completed b).map Completion.req)) := by
  have hblock := h.blocks b
  rw [hq] at hblock
  obtain ⟨v, ⟨hc, hh⟩, _, hv, hs, _⟩ := hblock
  cases he : s.pol.entry b with
  | none =>
    rw [he] at hc hh
    exact (survives_of_uncached hv hc.2.1).mpr hh
  | some e =>
    rw [he] at hc hh hs
    exact (survives_of_named h.ids hlt hv hs ⟨e, rfl, v.status, hc.status_or, hc.2, hh.1⟩).mpr rfl

theorem Inv.survives_busy_iff {c : Chain cfg.entriesCount cfg.blockSize}
    {cs : List (Chain cfg.entriesCount cfg.blockSize)}
    (h : Inv (writeBack cfg hmode ids) w₀ s) (hlt : ∀ e, (ids e).toNat < 2 ^ 30)
    (hq : s.queue b = c :: cs) (hio : c.req.ioType ≠ .write) :
    Survives cfg s.pol b (flat (w₀ b) ((s.completed b).map Completion.req))
      ↔ (InWindow c.ops = true → ∀ i < cfg.blockSize,
          cfg.cacheDiscard (flat (w₀ b) ((s.completed b).map Completion.req)) i
            = flat (w₀ b) ((s.completed b).map Completion.req) i) := by
  obtain ⟨hblk, a, z, hbusy⟩ := h.busy hq
  obtain ⟨a₀, done, m, v, hb, _, hok, ⟨hc, hh⟩, hwf, _, _, hv, hs⟩ := hbusy.running
  rw [hblk c List.mem_cons_self] at hv
  have hpoint := (hb.crash (m := m) hok hio hc hh hwf).point
  rw [hpoint.survives_iff h.ids hlt hv hs, memcpy_eq_self_iff]
  simp only [Nat.zero_add]

end Run

/--
**What a crash leaves.** In every state of every run, a block without a WRITE
under way has its acknowledged content where its word says, exactly if it is not
in the window of a DEMOTE_CACHE or the discard left the bytes of the slot alone.
-/
theorem survives_iff_reachable (cfg : CacheConfig) (hmode : cfg.cacheMode ≠ .readOnly)
    (hslots : cfg.entriesCount ≤ 2 ^ 30)
    (cacheData backData : Bytes) (s : Serial (policy cfg))
    (hr : Reachable Serial.step WriteBackRun
      (Serial.start (P := policy cfg) (fresh cfg cacheData backData)) s)
    (b : Nat) (hb : NotWriting s b) :
    Survives cfg s.pol b
        (flat (block cfg.blockSize b backData) ((s.completed b).map Completion.req))
      ↔ (Demoting s b → ∀ i < cfg.blockSize,
          cfg.cacheDiscard
              (flat (block cfg.blockSize b backData) ((s.completed b).map Completion.req)) i
            = flat (block cfg.blockSize b backData) ((s.completed b).map Completion.req) i) := by
  obtain ⟨hinv, _⟩ := writeBack_reachable hmode hr
  have hlt : ∀ e, ((newEntries cfg.entriesCount e).entryId).toNat < 2 ^ 30 := by
    intro e
    rw [newEntries_toNat]; omega
  cases hq : s.queue b with
  | nil =>
    refine ⟨fun _ hd => ?_, fun _ => hinv.survives_idle hlt hq⟩
    obtain ⟨c, cs, hc, _⟩ := hd
    rw [hq] at hc; cases hc
  | cons c cs =>
    refine (hinv.survives_busy_iff hlt hq (hb c cs hq)).trans ?_
    constructor
    · rintro h ⟨c', cs', hc', hw⟩
      rw [hq] at hc'
      rw [← (List.cons.inj hc').1] at hw
      exact h hw
    · exact fun h hw => h ⟨c, cs, hq, hw⟩

/-- A crash right after a WRITE was acknowledged finds the content in the slot. -/
theorem survives_written : ∃ s : Serial (policy (smallCache 0 .writeBack)),
    Survives (smallCache 0 .writeBack) s.pol 0
        (flat (block 2 0 fun _ => 0) ((s.completed 0).map Completion.req))
      ∧ (s.completed 0).length = 1 := by
  have hrun : (run Serial.step WriteBackRun (smallStart 0 .writeBack)
      [.accept (wholeRequest .write 0 7) (fun _ => 0), .send 0, .send 0, .send 0,
        .finish 0]).map (fun s => decide ((s.completed 0).length = 1 ∧ (s.queue 0).length = 0))
      = some true := by decide +kernel
  obtain ⟨s, hr, hone, hq⟩ := Reachable.of_run_decide hrun
  have hq := List.length_eq_zero_iff.mp hq
  refine ⟨s, ?_, hone⟩
  refine (survives_iff_reachable (smallCache 0 .writeBack) (by decide) (by decide)
    (fun _ => 0) (fun _ => 0) s hr 0 ?_).mpr ?_
  · intro c cs hc
    rw [hq] at hc; cases hc
  · rintro ⟨c, cs, hc, _⟩
    rw [hq] at hc; cases hc

/-- A crash between discarding the slot and clearing the word loses an acknowledged WRITE. -/
theorem not_survives_demoting : ∃ s : Serial (policy (smallCache 0 .writeBack)),
    Reachable Serial.step WriteBackRun (smallStart 0 .writeBack) s ∧ NotWriting s 0
      ∧ ¬ Survives (smallCache 0 .writeBack) s.pol 0
          (flat (block 2 0 fun _ => 0) ((s.completed 0).map Completion.req)) := by
  have hrun : (run Serial.step WriteBackRun (smallStart 0 .writeBack)
      [.accept (wholeRequest .write 0 7) (fun _ => 0), .send 0, .send 0, .send 0, .finish 0,
        .accept (wholeRequest .demoteCache 0 0) (fun _ => 0), .send 0, .send 0]).map
      (fun s => decide ((s.queue 0).map (fun c => c.req.ioType) = [.demoteCache]
        ∧ (s.pol.blockMeta 0 : UInt32) >>> 30 ≠ 0
        ∧ block 2 (s.pol.blockMeta 0 &&& 0x3FFFFFFF).toNat s.pol.cacheData 0
          ≠ flat (block 2 0 fun _ => 0) ((s.completed 0).map Completion.req) 0)) = some true := by
    decide +kernel
  obtain ⟨s, hr, hq, hw, hne⟩ := Reachable.of_run_decide hrun
  refine ⟨s, hr, ?_, ?_⟩
  · intro c cs hc
    rw [hc, List.map_cons] at hq
    rw [(List.cons.inj hq).1]; simp
  · unfold Survives
    rw [if_pos hw]
    exact fun h => hne (congrFun h 0)

end HDCS.Proof
