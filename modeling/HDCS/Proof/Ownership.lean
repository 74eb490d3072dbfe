import HDCS.Proof.Restart

/-!
# Who owns a slot

The contract of this file is about control only: what a block's entry, status,
metadata word and place in the lists say about each other when none of its
chains is under way. It asks nothing of the requests, so it holds of every run
in which no store call fails.

With it the invariant says where every entry is: in `free_lru`, attached to one
block, or in the hands of one chain that has detached it and not given it back
(`SlotOwnership`).
-/

namespace HDCS.Proof

open Lib LruList CachePolicy Lib.Machine

variable {n : Nat}

def Controlled (ids : Fin n → UInt32) : Option (Fin n) → Cell → Prop
  | none, v => v.status = unpromoted ∧ v.word = 0 ∧ v.clean = false ∧ v.dirty = false
  | some e, v =>
    (v.status = promotedUnflushed ∧ v.clean = false ∧ v.dirty = true
      ∨ v.status = flushed ∧ v.clean = true ∧ v.dirty = false)
    ∧ v.word = v.status ||| ids e

section Chains

variable {cfg : CacheConfig} {req : BlockRequest cfg.blockSize} {ids : Fin n → UInt32}
  {a : Option (Fin n)} {op : BlockOp n} {x : Bufs × Cell} {e : Fin n}
  {comp : Option TimeoutComp}

theorem Controlled.of_data {v : Cell} {slot back : Bytes} (h : Controlled ids a v) :
    Controlled ids a { v with slot := slot, back := back } := by
  cases a <;> exact h

def moves : BlockOp n → Bool
  | .updateTierMeta _ _ => false
  | .updateCacheMeta _ _ _ => false
  | .updateLRU _ _ _ => false
  | .resetCacheEntry _ => false
  | _ => true

theorem Controlled.move (h : Controlled ids a x.2) (hop : moves op = true) :
    Controlled ids a (Cell.send cfg req op x).2 := by
  cases op with
  | flushBlockToBackend i e d =>
    simp only [Cell.send]
    split
    · exact h.of_data
    · exact h
  | updateTierMeta x e | updateCacheMeta st x e | updateLRU st e c | resetCacheEntry e => cases hop
  | _ => exact h.of_data

theorem Controlled.listed (hst : x.2.status = promotedUnflushed ∨ x.2.status = flushed)
    (hw : x.2.word = x.2.status ||| ids e) :
    Controlled ids (some e) (Cell.send cfg req (.updateLRU (some e) e comp) x).2 := by
  simp only [Cell.send]
  rcases hst with hst | hst
  · rw [if_pos hst]
    exact ⟨Or.inl ⟨hst, rfl, rfl⟩, hw⟩
  · rw [if_neg (by rw [hst]; decide)]
    exact ⟨Or.inr ⟨hst, rfl, rfl⟩, hw⟩

theorem Controlled.touch (h : Controlled ids (some e) x.2) :
    Controlled ids (some e) (Cell.send cfg req (.updateLRU (some e) e comp) x).2 :=
  Controlled.listed (h.1.imp And.left And.left) h.2

theorem Controlled.record {st : BlockStatus} (hst : st = promotedUnflushed ∨ st = flushed) :
    Controlled ids (some e) (Cell.send cfg req (.updateLRU (some e) e comp)
      (Cell.send cfg req (.updateCacheMeta (some e) st (ids e)) x)).2 :=
  Controlled.listed hst rfl

theorem Controlled.recordWrite :
    Controlled ids (some e)
      (Cell.run cfg req (CachePolicy.recordWrite cfg e (ids e) comp) x).2 := by
  unfold CachePolicy.recordWrite
  split
  · simp only [Cell.run_cons, Cell.run_nil]
    exact Controlled.record (Or.inl rfl)
  · simp only [Cell.run_cons, Cell.run_nil]
    exact Controlled.record (Or.inr rfl)

theorem Controlled.dropped (cfg : CacheConfig) (req : BlockRequest cfg.blockSize)
    (ids : Fin n → UInt32) (x : Bufs × Cell) :
    Controlled ids none (Cell.run cfg req (dropTail e comp) x).2 := ⟨rfl, rfl, rfl, rfl⟩

/-- **Every chain leads from rest to rest, as far as control goes.** -/
theorem Built.controlled {a' : Option (Fin n)} {ops : List (BlockOp n)}
    (h : Built cfg ids a req ops a') (hv : Controlled ids a x.2) :
    Controlled ids a' (Cell.run cfg req ops x).2 := by
  cases h with
  | readHit comp _ =>
    unfold CachePolicy.readHit
    split
    · simp only [Cell.run_cons, Cell.run_nil]
      exact (((hv.move rfl).move rfl).move rfl).touch
    · simp only [Cell.run_cons, Cell.run_nil]
      exact (hv.move rfl).touch
  | readMiss comp _ =>
    unfold CachePolicy.readMiss
    split
    · simp only [Cell.run_cons, Cell.run_nil]
      exact Controlled.record (Or.inr rfl)
    · simp only [Cell.run_cons, Cell.run_nil]
      exact Controlled.record (Or.inr rfl)
  | writeHit comp _ _ =>
    unfold CachePolicy.writeHit
    split
    · rw [Cell.run_append]
      exact Controlled.recordWrite
    · rw [Cell.run_cons]
      exact Controlled.recordWrite
  | writeMiss comp _ _ =>
    unfold CachePolicy.writeMiss
    split
    · rw [Cell.run_append]
      exact Controlled.recordWrite
    · rw [Cell.run_cons]
      exact Controlled.recordWrite
  | demote comp _ | discard comp _ => exact Controlled.dropped cfg req ids _
  | flush comp _ =>
    unfold CachePolicy.flush
    simp only [Cell.run_cons, Cell.run_nil]
    exact Controlled.record (Or.inr rfl)
  | readNone _ | writeReadOnly _ _ | writeNone _ _ | promote _ =>
    simp only [Cell.run_cons, Cell.run_nil]; exact hv.move rfl
  | discardNone _ => simp only [Cell.run_cons, Cell.run_nil]; exact (hv.move rfl).move rfl
  | demoteNone _ | flushNone _ => exact hv

end Chains

def control (cfg : CacheConfig) (ids : Fin n → UInt32) : Contract cfg ids where
  Ok := fun _ _ => True
  Idle := fun _ a v => Controlled ids a v
  run := fun hb _ hi _ _ => hb.controlled hi
  attach := fun h => ⟨rfl, h.2.1, h.2.2.1, h.2.2.2⟩

/-! ## Where an entry is -/

def InHands {bs : Nat} (c : Chain n bs) (e : Fin n) : Prop :=
  (c.req.ioType = .demoteCache ∨ c.req.ioType = .discard)
    ∧ freesOf c.ops = some e ∧ resetsOf c.ops = none

section Where

variable {cfg : CacheConfig} {ids : Fin n → UInt32} {K : Contract cfg ids}
  {s : CacheState n} {b : Nat} {w : Bytes} {c : Chain n cfg.blockSize}
  {cs q : List (Chain n cfg.blockSize)} {a z : Option (Fin n)} {ops : List (BlockOp n)} {e : Fin n}

theorem Shape.resetsOf_of_freesOf {y : Option (Fin n)} (h : Shape ids a ops y)
    (hf : freesOf ops = some e) : resetsOf ops = some e := by
  cases h with
  | keep hp | fill hp => rw [hp.frees] at hf; cases hf
  | drop pre hp =>
    rw [freesOf_drop hp] at hf
    rw [resetsOf_append, hp.resets]; exact hf
  | clear pre hp => rw [freesOf_clear hp] at hf; cases hf

theorem Waiting.resetsOf_of_freesOf (h : Waiting K a cs z) (hf : freesOf (allOps cs) = some e) :
    resetsOf (allOps cs) = some e := by
  induction h with
  | nil => cases hf
  | @cons _ _ _ c cs hb _ _ _ _ _ ih =>
    rw [allOps_cons, freesOf_append] at hf
    rw [allOps_cons, resetsOf_append]
    cases hc : freesOf c.ops with
    | some e' =>
      rw [hc] at hf
      rw [hb.shape.resetsOf_of_freesOf hc]; exact hf
    | none =>
      rw [hc] at hf
      rw [hb.shape.rest.resetsOf_eq_none hc]; exact ih hf

theorem Waiting.not_inHands (h : Waiting K a cs z) (hc : c ∈ cs) : ¬ InHands c e := by
  rintro ⟨_, hf, hq⟩
  induction h with
  | nil => cases hc
  | cons hb _ _ _ _ _ ih =>
    rcases List.mem_cons.mp hc with rfl | hc
    · rw [hb.shape.resetsOf_of_freesOf hf] at hq; cases hq
    · exact ih hc

theorem Built.ioType_of_freesOf {y : Option (Fin n)} {req : BlockRequest cfg.blockSize}
    (h : Built cfg ids a req ops y) (hf : freesOf ops = some e) :
    req.ioType = .demoteCache ∨ req.ioType = .discard := by
  obtain ⟨ha, hy⟩ : a = some e ∧ y = none := by
    cases h.shape with
    | keep hp | fill hp => rw [hp.frees] at hf; cases hf
    | drop pre hp => rw [freesOf_drop hp] at hf; exact ⟨hf, rfl⟩
    | clear pre hp => rw [freesOf_clear hp] at hf; cases hf
  subst ha hy
  cases h with
  | demote _ hio => exact Or.inl hio
  | discard _ hio => exact Or.inr hio

theorem Running.ioType_of_freesOf (h : Running K s w c a) (hf : freesOf c.ops = some e) :
    c.req.ioType = .demoteCache ∨ c.req.ioType = .discard := by
  obtain ⟨a₀, done, m, v, hb, _⟩ := h
  cases hd : freesOf done with
  | none => exact hb.ioType_of_freesOf (by rw [freesOf_append, hd]; exact hf)
  | some e' => exact hb.ioType_of_freesOf (e := e') (by rw [freesOf_append, hd]; rfl)

theorem BlockInv.slot_cases (h : BlockInv K s b w q) (ho : owns q (s.entry b) = some e) :
    s.entry b = some e ∨ s.entry b = none ∧ ∃ c, q = [c] ∧ InHands c e := by
  cases q with
  | nil => exact Or.inl ho
  | cons c cs =>
    obtain ⟨_, a, z, h⟩ := h
    have hentry := h.entry
    unfold owns at ho
    rw [allOps_cons, freesOf_append] at ho
    rw [allOps_cons, resetsOf_append] at hentry
    cases hf : freesOf c.ops with
    | some e' =>
      obtain rfl : e' = e := by rw [hf] at ho; exact Option.some.inj ho
      obtain ⟨rfl, rfl⟩ := h.alone (h.rest.releasesOf_of_freesOf hf)
      cases hq : resetsOf c.ops with
      | none =>
        refine Or.inr ⟨?_, c, rfl, h.running.ioType_of_freesOf hf, hf, hq⟩
        rw [hentry, hq]; rfl
      | some k =>
        obtain rfl : e' = k := Option.some.inj (hf.symm.trans (h.rest.freesOf_of_resetsOf hq))
        rw [hentry, hq]; exact Or.inl rfl
    | none =>
      rw [hf] at ho
      cases hfs : freesOf (allOps cs) with
      | none => rw [hfs] at ho; exact Or.inl ho
      | some e' =>
        obtain rfl : e' = e := by rw [hfs] at ho; exact Option.some.inj ho
        rw [hentry, h.rest.resetsOf_eq_none hf, h.waiting.resetsOf_of_freesOf hfs]
        exact Or.inl rfl

theorem Waiting.owner_of_entry (h : Waiting K a cs z)
    (he : (resetsOf (allOps cs) <|> z) = some e) :
    (freesOf (allOps cs) <|> some e) = some e := by
  cases hf : freesOf (allOps cs) with
  | none => rfl
  | some e' => rw [h.resetsOf_of_freesOf hf] at he; exact he

theorem BlockInv.owns_of_entry (h : BlockInv K s b w q) (he : s.entry b = some e) :
    owns q (s.entry b) = some e := by
  cases q with
  | nil => exact he
  | cons c cs =>
    obtain ⟨_, a, z, h⟩ := h
    unfold owns
    have hentry := h.entry
    rw [allOps_cons, resetsOf_append, he] at hentry
    rw [he, allOps_cons, freesOf_append]
    cases hf : freesOf c.ops with
    | some e' =>
      obtain ⟨rfl, rfl⟩ := h.alone (h.rest.releasesOf_of_freesOf hf)
      cases hq : resetsOf c.ops with
      | none => rw [hq] at hentry; cases hentry
      | some k =>
        rw [hq] at hentry
        have hk := hf.symm.trans (h.rest.freesOf_of_resetsOf hq)
        rw [hk]; exact hentry.symm
    | none =>
      rw [h.rest.resetsOf_eq_none hf] at hentry
      exact h.waiting.owner_of_entry hentry.symm

theorem BlockInv.of_inHands (h : BlockInv K s b w q) (hc : c ∈ q) (hh : InHands c e) :
    s.entry b = none ∧ owns q (s.entry b) = some e := by
  cases q with
  | nil => cases hc
  | cons c' cs =>
    obtain ⟨_, a, z, h⟩ := h
    rcases List.mem_cons.mp hc with rfl | hc
    · obtain ⟨_, hf, hq⟩ := hh
      obtain ⟨rfl, rfl⟩ := h.alone (h.rest.releasesOf_of_freesOf hf)
      constructor
      · rw [h.entry, allOps_cons, resetsOf_append, hq]; rfl
      · unfold owns
        rw [allOps_cons, freesOf_append, hf]; rfl
    · exact absurd hh (h.waiting.not_inHands hc)

end Where

def Settled {cfg : CacheConfig} (s : CacheState cfg.entriesCount) (b : Nat) : Prop :=
  match s.entry b with
  | some e =>
    (b ∈ s.dirtyLru ∧ b ∉ s.cleanLru ∨ b ∉ s.dirtyLru ∧ b ∈ s.cleanLru)
      ∧ (b ∈ s.dirtyLru ↔ (s.entries e).status = promotedUnflushed)
      ∧ s.blockMeta b = (s.entries e).status ||| (s.entries e).entryId
  | none => b ∉ s.dirtyLru ∧ b ∉ s.cleanLru ∧ s.blockMeta b = 0

/-- Where the entries are, and what is known of blocks without chains. -/
structure SlotOwnership {cfg : CacheConfig} (s : Serial (policy cfg)) : Prop where
  /-- Free, attached to one block, or in the hands of one chain: exactly one of these. -/
  entry : ∀ e,
    (e ∈ s.pol.freeLru ∧ (∀ b, s.pol.entry b ≠ some e) ∧ ∀ b, ∀ c ∈ s.queue b, ¬ InHands c e)
    ∨ (e ∉ s.pol.freeLru ∧ (∃! b, s.pol.entry b = some e) ∧ ∀ b, ∀ c ∈ s.queue b, ¬ InHands c e)
    ∨ (e ∉ s.pol.freeLru ∧ (∀ b, s.pol.entry b ≠ some e)
        ∧ ∃! b, ∃ c, s.queue b = [c] ∧ InHands c e)
  nodup : s.pol.freeLru.Nodup
  settled : ∀ b, s.queue b = [] → Settled s.pol b

section Ownership

variable {cfg : CacheConfig} {ids : Fin cfg.entriesCount → UInt32} {w₀ : Nat → Bytes}
  {s : Serial (policy cfg)}

theorem Inv.entry_unique {K : Contract cfg ids} (h : Inv K w₀ s) {b b' : Nat}
    {e : Fin cfg.entriesCount} (hb : s.pol.entry b = some e) (hb' : s.pol.entry b' = some e) :
    b = b' :=
  h.pool.inj b b' e ((h.blocks b).owns_of_entry hb) ((h.blocks b').owns_of_entry hb')

theorem Inv.slotOf_of_inHands {K : Contract cfg ids} (h : Inv K w₀ s) {b : Nat}
    {e : Fin cfg.entriesCount} {c : Chain cfg.entriesCount cfg.blockSize}
    (hc : c ∈ s.queue b) (hh : InHands c e) : slotOf s b = some e :=
  ((h.blocks b).of_inHands hc hh).2

theorem Inv.not_attached_of_inHands {K : Contract cfg ids} (h : Inv K w₀ s) {b b' : Nat}
    {e : Fin cfg.entriesCount} {c : Chain cfg.entriesCount cfg.blockSize}
    (hc : c ∈ s.queue b) (hh : InHands c e) : s.pol.entry b' ≠ some e := by
  obtain ⟨hn, ho⟩ := (h.blocks b).of_inHands hc hh
  intro hb'
  obtain rfl := h.pool.inj b b' e ho ((h.blocks b').owns_of_entry hb')
  rw [hn] at hb'; cases hb'

theorem Inv.settled (h : Inv (control cfg ids) w₀ s) {b : Nat} (hq : s.queue b = []) :
    Settled s.pol b := by
  have hb := h.blocks b
  rw [hq] at hb
  obtain ⟨v, hi, _, hv, hs, _⟩ := hb
  unfold Settled
  cases he : s.pol.entry b with
  | none =>
    rw [he] at hi
    obtain ⟨_, hw, hc, hd⟩ := hi
    refine ⟨?_, ?_, hv.word.trans hw⟩
    · rw [hv.dirty, hd]; simp
    · rw [hv.clean, hc]; simp
  | some e =>
    rw [he] at hi hs
    obtain ⟨hst, hw⟩ := hi
    have hse := (hs e rfl).status
    dsimp only
    refine ⟨?_, ?_, ?_⟩
    · rw [hv.dirty, hv.clean]
      rcases hst with ⟨_, hc, hd⟩ | ⟨_, hc, hd⟩
      · exact Or.inl ⟨hd, by simp [hc]⟩
      · exact Or.inr ⟨by simp [hd], hc⟩
    · rw [hv.dirty, hse]
      rcases hst with ⟨hst, _, hd⟩ | ⟨hst, _, hd⟩
      · exact ⟨fun _ => hst, fun _ => hd⟩
      · rw [hd, hst]
        exact ⟨nofun, fun h => absurd h.symm promotedUnflushed_ne_flushed⟩
    · rw [hv.word, hw, hse, h.ids e]

theorem Inv.slotOwnership (h : Inv (control cfg ids) w₀ s) : SlotOwnership s := by
  refine ⟨?_, h.pool.nodup, fun b => h.settled⟩
  intro e
  rcases h.pool.cover e with hfree | ⟨b, hb⟩
  · -- a free entry has no owner, so no block has it and no chain holds it
    refine Or.inl ⟨hfree, fun b hb => ?_, fun b c hc hh => ?_⟩
    · exact h.pool.disjoint e hfree b ((h.blocks b).owns_of_entry hb)
    · exact h.pool.disjoint e hfree b (h.slotOf_of_inHands hc hh)
  · have hnf : e ∉ s.pol.freeLru := fun hf => h.pool.disjoint e hf b hb
    rcases (h.blocks b).slot_cases hb with he | ⟨_, c, hc, hh⟩
    · refine Or.inr (Or.inl ⟨hnf, ⟨b, he, fun b' hb' => h.entry_unique hb' he⟩, ?_⟩)
      intro b' c hc hh
      exact h.not_attached_of_inHands hc hh he
    · have hmem : c ∈ s.queue b := by rw [hc]; exact List.mem_singleton_self c
      refine Or.inr (Or.inr ⟨hnf, fun b' => h.not_attached_of_inHands hmem hh,
        ⟨b, ⟨c, hc, hh⟩, ?_⟩⟩)
      rintro b' ⟨c', hc', hh'⟩
      have hmem' : c' ∈ s.queue b' := by rw [hc']; exact List.mem_singleton_self c'
      exact h.pool.inj b' b e (h.slotOf_of_inHands hmem' hh') hb

end Ownership

theorem control_reachable {cfg : CacheConfig} {cacheData backData : Bytes}
    {s : Serial (policy cfg)}
    (hr : Reachable Serial.step ErrorFree
      (Serial.start (P := policy cfg) (fresh cfg cacheData backData)) s) :
    Inv (control cfg fun k => (newEntries cfg.entriesCount k).entryId)
      (fun b => block cfg.blockSize b backData) s := by
  refine Inv.reachable (newEntries_injective cfg) ?_ (hr.mono ?_)
  · exact fresh_inv cfg cacheData backData _ fun b => ⟨rfl, rfl, rfl, rfl⟩
  · intro s a ha
    cases a with
    | fail b r => exact ha
    | _ => trivial

/-- **No entry is lost or shared, in any run without store errors.** -/
theorem slotOwnership_reachable (cfg : CacheConfig) (cacheData backData : Bytes)
    (s : Serial (policy cfg))
    (hr : Reachable Serial.step ErrorFree
      (Serial.start (P := policy cfg) (fresh cfg cacheData backData)) s) : SlotOwnership s :=
  (control_reachable hr).slotOwnership

/-- In the middle of a DEMOTE_CACHE, with the entry in the hands of the chain. -/
theorem slotOwnership_mid_demote : ∃ s : Serial (policy (smallCache 1 .writeBack)),
    SlotOwnership s ∧ s.pol.entry 0 = none ∧ (s.queue 0).length = 1 := by
  have hrun : (run Serial.step ErrorFree (smallStart 1 .writeBack)
      [.accept (wholeRequest .write 0 7) (fun _ => 0), .send 0, .send 0, .send 0, .finish 0,
        .accept (wholeRequest .demoteCache 0 0) (fun _ => 0), .send 0, .send 0, .send 0]).map
      (fun s => decide (s.pol.entry 0 = none ∧ (s.queue 0).length = 1)) = some true := by
    decide +kernel
  obtain ⟨s, hr, hp⟩ := Reachable.of_run_decide hrun
  exact ⟨s, slotOwnership_reachable _ _ _ s hr, hp⟩

end HDCS.Proof
