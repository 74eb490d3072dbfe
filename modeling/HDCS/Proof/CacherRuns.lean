import HDCS.Proof.SimpleBlockCacher

/-!
# Flushes and runs of `SimpleBlockCacher`

A flush starts a write to the backend for every dirty entry on its list, and while the
writes are on their way in whatever order, `Coherent` knows them: each carries the
object of a dirty entry. One that arrives makes its entry clean, and that the backend
has its object now is what `Coherent` asks of a clean entry.

The runs are those of any calls in which time does not go back. `read_flush_volume`
says what they come to when writes are `Covered`; without that, and for reads that
follow a read, the bytes of the volume get lost (`volume_lost`).
-/

namespace HDCS.SimpleBlockCacher

open Lib LruList Lib.Machine AioBackendWrite List

variable {objectSize now ts : Nat} {w : Bytes} {s s' : SimpleBlockCacher}
  {flying : List AioBackendWrite}

/-! ## Flushing -/

theorem dirty_setBlock {c : Nat} {entry : Block} (h : entry.ifClean = (s.metaTbl c).ifClean)
    (k : Nat) : Dirty (s.setBlock c entry) k ↔ Dirty s k := by
  unfold Dirty
  by_cases hk : k = c
  · rw [hk, setBlock_self, h]
  · rw [setBlock_of_ne hk]

theorem Coherent.setOff (h : Coherent objectSize w ts flying s) (hnow : ts ≤ now) {c : Nat}
    (hdirty : Dirty s c) (hidle : ¬ (s.metaTbl c).inflightFlush = true) :
    Coherent objectSize w ts (flying ++ [s.aioBackendWrite objectSize now c])
      (s.setBlock c { s.metaTbl c with tsFlush := now, inflightFlush := true }) := by
  have hold := h.holds hdirty
  generalize he : ({ s.metaTbl c with tsFlush := now, inflightFlush := true } : Block) = entry
  have hsame : ∀ k, Dirty (s.setBlock c entry) k ↔ Dirty s k := dirty_setBlock (he ▸ rfl)
  have hkeys : (flying ++ [s.aioBackendWrite objectSize now c]).map cacheEntry
      = flying.map cacheEntry ++ [c] := map_append
  refine ⟨h.slots.setBlock (he ▸ rfl), fun k => ?_, fun x hx => ?_, h.lruDirty_nodup, fun k => ?_,
    fun k => ?_, ?_, fun aio haio => ?_⟩
  · by_cases hk : k = c
    · rw [hk, setBlock_self, ← he]
      exact ⟨(h.sound c).tsWrite_le, fun _ => ⟨hold.index, hold.offset, hold.aligned, hold.slot⟩⟩
    · rw [setBlock_of_ne hk]
      exact h.sound k
  · exact h.backend_eq x fun hd => hx ((hsame _).mpr hd)
  · rw [hsame]
    exact h.mem_lruDirty k
  · rw [hkeys, mem_append, mem_singleton]
    by_cases hk : k = c
    · rw [hk, setBlock_self, ← he]
      exact iff_of_true rfl (.inr rfl)
    · rw [setBlock_of_ne hk, or_iff_left hk]
      exact h.inflight k
  · rw [hkeys]
    have hfresh : c ∉ flying.map cacheEntry :=
      fun hmem => hidle ((h.inflight c).mpr hmem)
    exact h.flying_nodup.append (nodup_singleton c) (disjoint_singleton.mpr hfresh)
  · rcases mem_append.mp haio with hold | hnew
    · have hf := h.flies aio hold
      exact ⟨(hsame _).mpr hf.dirty, hf.offset, hf.data, hf.ts_le⟩
    · rw [mem_singleton.mp hnew]
      refine ⟨(hsame c).mpr hdirty, hold.offset, fun i hi => ?_, hnow⟩
      exact (hold.slot i hi).trans (congrArg (fun o => w (o + i)) hold.offset.symm)

theorem Coherent.doFlush (h : Coherent objectSize w ts flying s) (hnow : ts ≤ now) (c : Nat) :
    ∃ s' flying', doFlush objectSize now (s, flying) c = (s', flying')
      ∧ Coherent objectSize w ts flying' s' ∧ (∀ k, Dirty s' k ↔ Dirty s k)
      ∧ (∀ k ∈ flying.map cacheEntry, k ∈ flying'.map cacheEntry)
      ∧ (Dirty s c → c ∈ flying'.map cacheEntry) := by
  unfold SimpleBlockCacher.doFlush
  dsimp only
  split
  · rename_i hnone
    refine ⟨s, flying, rfl, h, fun _ => Iff.rfl, fun _ => id, fun hd => ?_⟩
    exact absurd (h.of_index hnone).1 (hd ▸ Bool.noConfusion)
  · split
    · rename_i hclean
      refine ⟨s, flying, rfl, h, fun _ => Iff.rfl, fun _ => id, fun hd => ?_⟩
      exact absurd hclean (hd ▸ Bool.noConfusion)
    · rename_i hclean
      split
      · rename_i hflight
        exact ⟨s, flying, rfl, h, fun _ => Iff.rfl, fun _ => id, fun _ => (h.inflight c).mp hflight⟩
      · rename_i hidle
        refine ⟨_, _, rfl, h.setOff hnow ((Bool.not_eq_true _).mp hclean) hidle,
          dirty_setBlock rfl, fun k hk => ?_, fun _ => ?_⟩
        · rw [map_append]
          exact mem_append_left _ hk
        · rw [map_append]
          exact mem_append_right _ (mem_singleton.mpr rfl)

theorem Coherent.doFlushAll (h : Coherent objectSize w ts [] s) (hnow : ts ≤ now) (l : List Nat) :
    ∃ s' flying, l.foldl (SimpleBlockCacher.doFlush objectSize now) (s, []) = (s', flying)
      ∧ Coherent objectSize w ts flying s' ∧ (∀ k, Dirty s' k ↔ Dirty s k)
      ∧ ∀ c ∈ l, Dirty s c → c ∈ flying.map cacheEntry := by
  refine foldl_invariant (I := fun done p => ∃ s' flying, p = (s', flying)
    ∧ Coherent objectSize w ts flying s' ∧ (∀ k, Dirty s' k ↔ Dirty s k)
    ∧ ∀ c ∈ done, Dirty s c → c ∈ flying.map cacheEntry) ?_ ?_ l
  · exact ⟨s, [], rfl, h, fun _ => Iff.rfl, fun _ hc => absurd hc not_mem_nil⟩
  · rintro done c _ ⟨t, flying, rfl, ht, hsame, hdone⟩
    obtain ⟨t', flying', heq, ht', hsame', hkept, hc⟩ := ht.doFlush hnow c
    refine ⟨t', flying', heq, ht', fun k => (hsame' k).trans (hsame k), fun k hk hd => ?_⟩
    rcases mem_append.mp hk with hold | hnew
    · exact hkept k (hdone k hold hd)
    · rw [mem_singleton.mp hnew] at hd ⊢
      exact hc ((hsame c).mpr hd)

structure Finished (objectSize : Nat) (s : SimpleBlockCacher) (aio : AioBackendWrite)
    (s' : SimpleBlockCacher) : Prop where
  slots : Slots s'
  self : s'.metaTbl aio.cacheEntry
    = { s.metaTbl aio.cacheEntry with ifClean := true, inflightFlush := false }
  other : ∀ k, k ≠ aio.cacheEntry → s'.metaTbl k = s.metaTbl k
  device : s'.device = s.device
  backend : s'.backend = memcpy s.backend aio.offset aio.data 0 objectSize
  lruDirty : s'.lruDirty = remove aio.cacheEntry s.lruDirty

theorem finish_spec {aio : AioBackendWrite} (hslots : Slots s)
    (hts : (s.metaTbl aio.cacheEntry).tsWrite ≤ aio.tsWrite) :
    Finished objectSize s aio (finish objectSize s aio) := by
  have hkeep : Slots (s.setBlock aio.cacheEntry
      { s.metaTbl aio.cacheEntry with ifClean := true, inflightFlush := false }) :=
    hslots.setBlock rfl
  unfold finish
  dsimp only
  rw [if_neg (Nat.not_lt.mpr hts)]
  exact ⟨hkeep.congr rfl rfl, setBlock_self, fun k hk => setBlock_of_ne hk, rfl, rfl, rfl⟩

theorem Coherent.finish (hpos : 0 < objectSize) {aio : AioBackendWrite}
    (h : Coherent objectSize w ts (aio :: flying) s) :
    Coherent objectSize w ts flying (finish objectSize s aio)
      ∧ ∀ k, Dirty (SimpleBlockCacher.finish objectSize s aio) k
          ↔ Dirty s k ∧ k ≠ aio.cacheEntry := by
  have hf := h.flies aio mem_cons_self
  have hold := h.holds hf.dirty
  obtain ⟨hfresh, hnodup⟩ := nodup_cons.mp h.flying_nodup
  have hfin : Finished objectSize s aio (SimpleBlockCacher.finish objectSize s aio) :=
    finish_spec h.slots (Nat.le_trans (h.sound aio.cacheEntry).tsWrite_le hf.ts_le)
  have hdirty : ∀ k, Dirty (SimpleBlockCacher.finish objectSize s aio) k
      ↔ Dirty s k ∧ k ≠ aio.cacheEntry := by
    intro k
    unfold Dirty
    by_cases hk : k = aio.cacheEntry
    · rw [hk, hfin.self]
      exact iff_of_false Bool.noConfusion fun h => h.2 rfl
    · rw [hfin.other k hk]
      exact (and_iff_left hk).symm
  refine ⟨⟨hfin.slots, fun k => ?_, fun x hx => ?_, ?_, fun k => ?_, fun k => ?_, hnodup,
    fun aio' haio' => ?_⟩, hdirty⟩
  · rw [hfin.device]
    by_cases hk : k = aio.cacheEntry
    · rw [hk, hfin.self]
      exact ⟨(h.sound aio.cacheEntry).tsWrite_le,
        fun _ => ⟨hold.index, hold.offset, hold.aligned, hold.slot⟩⟩
    · rw [hfin.other k hk]
      exact h.sound k
  · rw [hfin.backend, hf.offset]
    by_cases hk : x / objectSize * objectSize = aio.cacheEntry
    · -- a byte of the object
      have hmod := Nat.mod_lt x hpos
      have hsplit := Nat.div_add_mod' x objectSize
      have hbyte := hf.data (x - aio.cacheEntry) (by omega)
      rw [memcpy_of_mem (by omega) (by omega), Nat.zero_add, hbyte, hf.offset]
      congr 1
      omega
    · rw [memcpy_of_object_ne hpos hold.aligned hk (Nat.le_refl _)]
      exact h.backend_eq x fun hd => hx ((hdirty _).mpr ⟨hd, hk⟩)
  · rw [hfin.lruDirty]
    exact nodup_remove h.lruDirty_nodup
  · rw [hfin.lruDirty, mem_remove h.lruDirty_nodup, hdirty, h.mem_lruDirty, and_comm]
  · by_cases hk : k = aio.cacheEntry
    · rw [hk, hfin.self]
      exact iff_of_false Bool.noConfusion hfresh
    · rw [hfin.other k hk, h.inflight, map_cons, mem_cons, or_iff_right hk]
  · have hf' := h.flies aio' (mem_cons_of_mem aio haio')
    have hne : aio'.cacheEntry ≠ aio.cacheEntry :=
      fun heq => hfresh (heq ▸ mem_map_of_mem haio')
    exact ⟨(hdirty _).mpr ⟨hf'.dirty, hne⟩, hf'.offset, hf'.data, hf'.ts_le⟩

theorem Coherent.perm {flying' : List AioBackendWrite} (h : Coherent objectSize w ts flying s)
    (hperm : flying'.Perm flying) : Coherent objectSize w ts flying' s :=
  { h with
    inflight := fun c => (h.inflight c).trans (hperm.map _).mem_iff.symm
    flying_nodup := (hperm.map _).nodup_iff.mpr h.flying_nodup
    flies := fun aio haio => h.flies aio (hperm.mem_iff.mp haio) }

theorem Coherent.finishAll (hpos : 0 < objectSize) :
    ∀ {flying : List AioBackendWrite} {s : SimpleBlockCacher},
      Coherent objectSize w ts flying s →
      Coherent objectSize w ts [] (flying.foldl (SimpleBlockCacher.finish objectSize) s)
        ∧ ∀ k, Dirty (flying.foldl (SimpleBlockCacher.finish objectSize) s) k
            ↔ Dirty s k ∧ k ∉ flying.map cacheEntry := by
  intro flying
  induction flying with
  | nil =>
    intro s h
    exact ⟨h, fun k => (and_iff_left not_mem_nil).symm⟩
  | cons aio flying ih =>
    intro s h
    obtain ⟨hfin, hdirty⟩ := h.finish hpos
    obtain ⟨hrest, hdirty'⟩ := ih hfin
    refine ⟨hrest, fun k => (hdirty' k).trans ?_⟩
    rw [hdirty, map_cons, mem_cons, not_or, and_assoc]

theorem filterMap_getElem?_perm {α : Type} {order : List Nat} {l : List α}
    (h : order.Perm (List.range l.length)) : (order.filterMap (l[·]?)).Perm l := by
  have hrange : (List.range l.length).filterMap (l[·]?) = l := by
    clear h
    induction l with
    | nil => rfl
    | cons x l ih =>
      rw [length_cons, range_succ_eq_map, filterMap_cons, filterMap_map]
      exact congrArg (x :: ·) ih
  exact (h.filterMap _).trans (List.Perm.of_eq hrange)

theorem Coherent.mem_tmpSort (h : Coherent objectSize w ts flying s) {l : List Nat}
    (hl : ∀ c ∈ l, Dirty s c) {c : Nat} (hc : c ∈ l) :
    c ∈ (s.tmpSort l).toList.map Prod.snd := by
  have hfold : s.tmpSort l = l.foldl (fun m c => m.insertIfNew c c) ∅ := by
    refine foldl_ext _ _ _ fun m k hk => ?_
    have hold := h.holds (hl k hk)
    rw [if_pos hold.index, hold.offset]
  have hget : (s.tmpSort l)[c]? = some c := by
    rw [hfold]
    refine (OrderedMap.getElem?_foldl_insertIfNew id id c l ∅ (by simp)).trans ?_
    rw [map_id, if_pos hc]
    rfl
  exact mem_map.mpr ⟨(c, c), Std.TreeMap.mem_toList_iff_getElem?_eq_some.mpr hget, rfl⟩

theorem Coherent.flush (h : Coherent objectSize w ts [] s) (hnow : ts ≤ now) :
    ∃ t flying, s.flush objectSize now (s.lruDirty.reverse.take (toFloat s.lruDirty.length))
        = (t, flying) ∧ Coherent objectSize w ts flying t ∧ (∀ k, Dirty t k ↔ Dirty s k)
      ∧ ∀ c ∈ s.lruDirty.reverse.take (toFloat s.lruDirty.length),
          c ∈ flying.map cacheEntry := by
  have hl : ∀ c ∈ s.lruDirty.reverse.take (toFloat s.lruDirty.length), Dirty s c := by
    intro c hc
    exact (h.mem_lruDirty c).mp (mem_reverse.mp (mem_of_mem_take hc))
  obtain ⟨t, flying, heq, ht, hsame, hall⟩ := h.doFlushAll hnow
    ((s.tmpSort (s.lruDirty.reverse.take (toFloat s.lruDirty.length))).toList.map Prod.snd)
  exact ⟨t, flying, heq, ht, hsame, fun c hc => hall c (h.mem_tmpSort hl hc) (hl c hc)⟩

theorem Coherent.flushAll (hpos : 0 < objectSize) (h : Coherent objectSize w ts [] s)
    (hnow : ts ≤ now) {order : List Nat} (hf : s.flushAll objectSize order now = some s') :
    Coherent objectSize w ts [] s' := by
  obtain ⟨t, flying, heq, ht, -, -⟩ := h.flush hnow
  unfold SimpleBlockCacher.flushAll at hf
  rw [heq] at hf
  obtain ⟨hperm, hs'⟩ := Option.ite_none_right_eq_some.mp hf
  cases hs'
  exact ((ht.perm (filterMap_getElem?_perm (isPerm_iff.mp hperm))).finishAll hpos).1

/-- **`flush_all` empties the cache of what is dirty**, if it does not lose count. -/
theorem Coherent.flushAll_backend (hpos : 0 < objectSize) (h : Coherent objectSize w ts [] s)
    (hnow : ts ≤ now) (hcount : s.lruDirty.length ≤ toFloat s.lruDirty.length) {order : List Nat}
    (horder : order.Perm (List.range s.lruDirty.length)) :
    ∃ s', s.flushAll objectSize order now = some s' ∧ s'.backend = w := by
  obtain ⟨t, flying, heq, ht, hsame, hall⟩ := h.flush hnow
  have htake : s.lruDirty.reverse.take (toFloat s.lruDirty.length) = s.lruDirty.reverse :=
    take_of_length_le (by rwa [length_reverse])
  rw [htake] at hall
  -- the entries on their way are the dirty ones
  have hmem : ∀ c, c ∈ flying.map cacheEntry ↔ c ∈ s.lruDirty := by
    intro c
    constructor
    · intro hc
      obtain ⟨aio, haio, rfl⟩ := mem_map.mp hc
      exact (h.mem_lruDirty _).mpr ((hsame _).mp (ht.flies aio haio).dirty)
    · intro hc
      exact hall c (mem_reverse.mpr hc)
  have hlength : flying.length = s.lruDirty.length := by
    rw [← length_map cacheEntry]
    exact ((perm_ext_iff_of_nodup ht.flying_nodup h.lruDirty_nodup).mpr hmem).length_eq
  have hperm := filterMap_getElem?_perm (hlength ▸ horder)
  obtain ⟨hdone, hclean⟩ := (ht.perm hperm).finishAll hpos
  refine ⟨(order.filterMap (flying[·]?)).foldl (SimpleBlockCacher.finish objectSize) t, ?_, ?_⟩
  · unfold SimpleBlockCacher.flushAll
    rw [heq]
    exact if_pos (isPerm_iff.mpr (hlength ▸ horder))
  · funext x
    refine hdone.backend_eq x fun hd => ?_
    obtain ⟨hd, hnot⟩ := (hclean _).mp hd
    rw [(hperm.map _).mem_iff, hmem, h.mem_lruDirty, ← hsame] at hnot
    exact hnot hd

theorem toFloat_of_le {n : Nat} (h : n ≤ 2 ^ 24) : toFloat n = n := by
  unfold toFloat
  rcases Nat.lt_or_eq_of_le h with hlt | rfl
  · rw [if_pos hlt]
  · decide

/-! ## Runs -/

/-- The writes of a run that may be entrusted to the cache. -/
def Entrusted (objectSize : Nat) (r : Run) : Call → Prop
  | .write offset length data ts now =>
    Along (write objectSize data ts now) (Covered objectSize r.volume now) r.cacher
      (mapRequest objectSize offset length)
  | .read _ _ _ | .flushAll _ _ | .evictAllClean _ => True

instance (r : Run) : ∀ c, Decidable (Entrusted objectSize r c)
  | .write offset length data ts now => inferInstanceAs (Decidable
      (Along (write objectSize data ts now) (Covered objectSize r.volume now) r.cacher
        (mapRequest objectSize offset length)))
  | .read _ _ _ | .flushAll _ _ | .evictAllClean _ => inferInstanceAs (Decidable True)

structure Good (objectSize : Nat) (r : Run) : Prop where
  coherent : Coherent objectSize r.volume r.ts [] r.cacher
  ts_le : r.ts ≤ r.clock

theorem Good.step (hpos : 0 < objectSize) (hsize : objectSize < 2 ^ 31) {r r' : Run} {c : Call}
    (h : Good objectSize r) (htimed : Timed r c) (hentrusted : Entrusted objectSize r c)
    (hstep : step objectSize r c = some r') : Good objectSize r' := by
  cases c with
  | write offset length data ts now =>
    obtain ⟨s', hs', rfl⟩ := Option.map_eq_some_iff.mp hstep
    obtain ⟨t, ht, hc⟩ := (h.coherent.mono htimed.1).writePieces hpos hsize length offset length 0
      (Nat.le_refl _) (fun _ _ => rfl) hentrusted
    obtain rfl := Option.some.inj (ht.symm.trans hs')
    exact ⟨hc, htimed.2.1⟩
  | read offset length buf =>
    obtain ⟨p, hp, rfl⟩ := Option.map_eq_some_iff.mp hstep
    obtain ⟨t, data, ht, hc, -⟩ := h.coherent.readPieces hpos hsize length offset length 0
      buf (Nat.le_refl _)
    obtain rfl := Option.some.inj (ht.symm.trans hp)
    exact ⟨hc, h.ts_le⟩
  | flushAll order now =>
    obtain ⟨s', hs', rfl⟩ := Option.map_eq_some_iff.mp hstep
    have hnow := Nat.le_trans h.ts_le htimed
    exact ⟨h.coherent.flushAll hpos hnow hs', hnow⟩
  | evictAllClean now =>
    cases hstep
    exact ⟨h.coherent.evictAllClean none now, Nat.le_trans h.ts_le htimed⟩

/-- A read of `x`, as part of a request from `offset` on, finds what the volume has. Two places may
hold something else: a slot that has not been written since its entry got it from a read, and the
backend of an object that is dirty. -/
def Current (objectSize : Nat) (s : SimpleBlockCacher) (w : Bytes) (offset x : Nat) : Prop :=
  let entry := s.metaTbl (startOf objectSize offset x)
  (entry.onDiskIndex ≠ -1 → entry.ifClean = true ∧ entry.tsWrite = 0 →
      s.device (entry.onDiskIndex.toNat * objectSize + x % objectSize) = w x)
    ∧ (entry.onDiskIndex = -1 → Dirty s (x / objectSize * objectSize) → s.backend x = w x)

instance (s : SimpleBlockCacher) (c : Nat) : Decidable (Dirty s c) :=
  inferInstanceAs (Decidable (_ = false))

instance (s : SimpleBlockCacher) (w : Bytes) (offset x : Nat) :
    Decidable (Current objectSize s w offset x) :=
  inferInstanceAs (Decidable (_ ∧ _))

theorem Coherent.byteFrom_eq_iff (hpos : 0 < objectSize) (h : Coherent objectSize w ts [] s)
    {offset x : Nat} (hx : offset ≤ x) :
    byteFrom objectSize s (startOf objectSize offset x) x = w x
      ↔ Current objectSize s w offset x := by
  unfold Current byteFrom
  dsimp only
  by_cases hindex : (s.metaTbl (startOf objectSize offset x)).onDiskIndex = -1
  · rw [if_neg (not_not.mpr hindex)]
    refine ⟨fun heq => ⟨fun hne => absurd hindex hne, fun _ _ => heq⟩, fun hcur => ?_⟩
    by_cases hd : Dirty s (x / objectSize * objectSize)
    · exact hcur.2 hindex hd
    · exact h.backend_eq x hd
  · rw [if_pos hindex]
    refine ⟨fun heq => ⟨fun _ _ => heq, fun hnone => absurd hnone hindex⟩, fun hcur => ?_⟩
    by_cases hread : (s.metaTbl (startOf objectSize offset x)).ifClean = true
        ∧ (s.metaTbl (startOf objectSize offset x)).tsWrite = 0
    · exact hcur.1 hindex hread
    · -- the entry has been written, so it is the one of an object
      rw [not_and_or, Bool.not_eq_true] at hread
      have hold := (h.sound _).written (hread.imp_right Nat.pos_of_ne_zero)
      rw [hold.slot _ (Nat.mod_lt x hpos), startOf_eq_of_dvd hpos hx hold.aligned, Nat.div_add_mod']

/--
**When the librbd cache is a flat volume.** In a run whose writes may be entrusted to the cache,
any read request returns the bytes of the volume exactly if it finds them where it looks
(`Current`), and a `flush_all` that does not lose count leaves the whole volume in the backend,
whatever the order in which its writes arrive.
-/
theorem read_flush_volume (hpos : 0 < objectSize) (hsize : objectSize < 2 ^ 31) {n : Nat}
    {garbage : Int} {device backend : Bytes} {r : Run}
    (h : Reachable (step objectSize) (fun r c => Timed r c ∧ Entrusted objectSize r c)
      (start n garbage device backend) r) :
    (∀ offset length buf, ∃ s' data,
      r.cacher.processRead objectSize offset length buf = some (s', data)
        ∧ ((∀ i < length, data i = r.volume (offset + i))
          ↔ ∀ i < length, Current objectSize r.cacher r.volume offset (offset + i)))
    ∧ ∀ order now, r.clock ≤ now →
        r.cacher.lruDirty.length ≤ toFloat r.cacher.lruDirty.length →
        order.Perm (List.range r.cacher.lruDirty.length) →
        ∃ s', r.cacher.flushAll objectSize order now = some s' ∧ s'.backend = r.volume := by
  have hgood : Good objectSize r := h.invariant ⟨.new, Nat.le_refl _⟩
    fun _ _ _ hr hok hstep => hr.step hpos hsize hok.1 hok.2 hstep
  constructor
  · intro offset length buf
    obtain ⟨s', data, hread, -, -, hdata⟩ := hgood.coherent.readPieces hpos hsize length offset
      length 0 buf (Nat.le_refl _)
    refine ⟨s', data, hread, forall₂_congr fun i hi => ?_⟩
    rw [← hgood.coherent.byteFrom_eq_iff hpos (Nat.le_add_right offset i), ← hdata i hi,
      Nat.zero_add]
  · intro order now hnow hcount horder
    exact hgood.coherent.flushAll_backend hpos (Nat.le_trans hgood.ts_le hnow) hcount horder

def entrustedCalls : List Call :=
  [.write 0 10 (fun i => i.toUInt8) 1 1, .flushAll [1, 0] 2, .write 0 2 (fun _ => 9) 3 3,
    .evictAllClean 3]

theorem read_flush_volume_run : ∃ r,
    Reachable (step 4) (fun r c => Timed r c ∧ Entrusted 4 r c)
        (start 2 0 (fun _ => 0) fun _ => 7) r
      ∧ (∃ s' data, r.cacher.processRead 4 0 12 (fun _ => 0) = some (s', data)
        ∧ ∀ i < 12, data i = r.volume (0 + i))
      ∧ ∃ s', r.cacher.flushAll 4 [0] 4 = some s' ∧ s'.backend = r.volume := by
  have htest : (run (step 4) (fun r c => Timed r c ∧ Entrusted 4 r c)
      (start 2 0 (fun _ => 0) fun _ => 7) entrustedCalls).map (fun r => decide (r.clock ≤ 4
        ∧ r.cacher.lruDirty.length = 1
        ∧ ∀ i < 12, Current 4 r.cacher r.volume 0 (0 + i))) = some true := by decide +kernel
  obtain ⟨r, hr, hclock, hdirty, hcur⟩ := Reachable.of_run_decide htest
  obtain ⟨hread, hflush⟩ := read_flush_volume (by decide) (by decide) hr
  obtain ⟨s', data, hdata, hiff⟩ := hread 0 12 fun _ => 0
  refine ⟨r, hr, ⟨s', data, hdata, hiff.mpr hcur⟩, hflush [0] 4 hclock ?_ ?_⟩
  · rw [hdirty, toFloat_of_le (by decide)]
  · rw [hdirty]
    exact List.Perm.refl _

/-- What a read request returns, what the volume holds there, and what the backend holds. -/
def seen (offset length : Nat) (r : Run) : Option (List UInt8) × List UInt8 × List UInt8 :=
  ((r.cacher.processRead 4 offset length fun _ => 0).map fun p => (List.range length).map p.2,
    (List.range length).map fun i => r.volume (offset + i),
    (List.range length).map fun i => r.cacher.backend (offset + i))

/--
Four ways to lose bytes, in objects of four bytes over an image full of sevens. The second read of
an object gets what the slot held before; a write in the middle of an object is not seen by a
read of the object; and flushing half an object, or one that starts in the middle, writes a whole
one.
-/
theorem volume_lost :
    (run (step 4) Timed (start 2 0 (fun _ => 0) fun _ => 7) [.read 0 4 fun _ => 0]).map (seen 0 4)
        = some (some [0, 0, 0, 0], [7, 7, 7, 7], [7, 7, 7, 7])
      ∧ (run (step 4) Timed (start 2 0 (fun _ => 0) fun _ => 7)
          [.write 0 4 (fun _ => 1) 1 1, .write 2 2 (fun _ => 2) 1 1]).map (seen 0 4)
        = some (some [1, 1, 1, 1], [1, 1, 2, 2], [7, 7, 7, 7])
      ∧ (run (step 4) Timed (start 2 0 (fun _ => 0) fun _ => 7)
          [.write 0 2 (fun _ => 1) 1 1, .flushAll [0] 1]).map (seen 0 4)
        = some (some [1, 1, 0, 0], [1, 1, 7, 7], [1, 1, 0, 0])
      ∧ (run (step 4) Timed (start 2 0 (fun _ => 0) fun _ => 7)
          [.write 2 2 (fun _ => 1) 1 1, .flushAll [0] 1, .evictAllClean 1]).map (seen 0 8)
        = some (some [7, 7, 0, 0, 1, 1, 7, 7], [7, 7, 1, 1, 7, 7, 7, 7],
            [7, 7, 0, 0, 1, 1, 7, 7]) := by decide +kernel

end HDCS.SimpleBlockCacher
