import HDCS.Proof.ReadOnly
import HDCS.Proof.TierCell
import HDCS.Proof.Wedged

/-!
# Runs of the tier

A block at rest is what its completed requests make of it, one after the other
(`tier_at_rest`), and a READ returns what the cache held when its turn came
(`tier_answers`). Three properties of the tier are read off that.

The cache file takes the place of the backend from the first request on, whether
anything was promoted or not. So a READ is right about a byte exactly if the byte
was written, or the cache file happened to hold what the backend does
(`tier_read_flat_iff`); a PROMOTE goes unseen exactly if the two stores agree
(`promote_unseen_iff`); and a FLUSH marks a block as cached that never was
(`flushed_agrees_iff`).
-/

namespace HDCS.Proof

open Lib Lib.Machine TierPolicy List

/-- The tier over stores with the given contents, with nothing accepted yet. -/
abbrev tierStart (cfg : TierConfig) (cacheData : Bytes) (blockMeta : Nat → BlockStatus)
    (backData : Bytes) : Serial (policy cfg) :=
  Serial.start (P := policy cfg) (new cfg cacheData blockMeta backData)

section Runs

variable {cfg : TierConfig} {s : Serial (policy cfg)} {b : Nat}
  {cacheData backData : Bytes} {blockMeta : Nat → BlockStatus}

theorem ok_tierStart : (tierLocal cfg).Ok (tierStart cfg cacheData blockMeta backData).pol :=
  wired_new cfg cacheData blockMeta backData

/-- The requests completed for a block, in order. -/
def doneReqs (s : Serial (policy cfg)) (b : Nat) : List (BlockRequest cfg.blockSize) :=
  (s.completed b).map Completion.req

theorem settles_apply {v₀ w : TierCell} {done : List (Completion cfg.blockSize)}
    (hb : b < cfg.blocksCount) (hv : v₀.Clipped cfg) (h : (tierLocal cfg).Settles b v₀ done w) :
    w = TierCell.applyAll cfg v₀ (done.map Completion.req)
      ∧ ∀ k x, done[k]? = some x →
        Answers x.req (TierCell.applyAll cfg v₀ ((done.take k).map Completion.req)).cache
          x.data := by
  induction h with
  | nil => exact ⟨rfl, by simp⟩
  | snoc req scratch hblock _ ih =>
    rename_i done v _
    obtain ⟨rfl, hans⟩ := ih
    rw [← hblock] at hb
    have hclip := hv.applyAll (done.map Completion.req)
    refine ⟨?_, ?_⟩
    · rw [hclip.execute hb, map_append, map_singleton, TierCell.applyAll_snoc]
    · intro k x hk
      rcases Nat.lt_trichotomy k done.length with hlt | rfl | hgt
      · rw [getElem?_append_left hlt] at hk
        rw [take_append_of_le_length (Nat.le_of_lt hlt)]
        exact hans k x hk
      · rw [getElem?_append_right (Nat.le_refl _), Nat.sub_self] at hk
        cases hk
        rw [take_append_of_le_length (Nat.le_refl _), take_length]
        exact TierCell.execute_answers hb scratch
      · rw [getElem?_eq_none (by simp; omega)] at hk
        cases hk

theorem doneReqs_kind {p : BlockRequest cfg.blockSize → Prop}
    {ok : Serial (policy cfg) → Serial.Act cfg.blockSize → Prop}
    (hok : ∀ s req scratch, ok s (.accept req scratch) → p req)
    (hr : Reachable Serial.step ok (tierStart cfg cacheData blockMeta backData) s)
    (b : Nat) : ∀ req ∈ doneReqs s b, p req := by
  intro req hreq
  obtain ⟨y, hy, rfl⟩ := mem_map.mp hreq
  have hstart : AllRequests p (tierStart cfg cacheData blockMeta backData) :=
    fun _ => ⟨by simp [Serial.start], by simp [Serial.start]⟩
  exact (allRequests_reachable hok hstart hr b).2 y hy

abbrev firstCell (cfg : TierConfig) (cacheData : Bytes) (blockMeta : Nat → BlockStatus)
    (backData : Bytes) (b : Nat) : TierCell :=
  TierCell.of cfg (new cfg cacheData blockMeta backData) b

/-- **A block at rest is what its requests make of it**, whatever failed elsewhere. -/
theorem tier_at_rest {ok : Serial (policy cfg) → Serial.Act cfg.blockSize → Prop}
    (hb : b < cfg.blocksCount)
    (hr : Reachable Serial.step ok (tierStart cfg cacheData blockMeta backData) s)
    (hq : s.queue b = []) : TierCell.of cfg s.pol b
      = TierCell.applyAll cfg (firstCell cfg cacheData blockMeta backData b) (doneReqs s b) := by
  obtain ⟨done, hdone, hsettles⟩ :=
    LocalPolicy.settles_of_rest ok_tierStart (fun _ => rfl) hr hq
  obtain rfl : s.completed b = done := hdone
  exact (settles_apply hb (TierCell.clipped_of cfg _ b) hsettles).1

/-- **A READ returns what the cache has come to hold.** -/
theorem tier_answers (hb : b < cfg.blocksCount)
    (hr : Reachable Serial.step ErrorFree (tierStart cfg cacheData blockMeta backData) s)
    {k : Nat} {x : Completion cfg.blockSize} (hx : (s.completed b)[k]? = some x) :
    Answers x.req (TierCell.applyAll cfg (firstCell cfg cacheData blockMeta backData b)
      ((doneReqs s b).take k)).cache x.data := by
  obtain ⟨done, w, hdone, hsettles⟩ :=
    LocalPolicy.settles_reachable ok_tierStart (fun _ => rfl) hr b
  obtain rfl : s.completed b = done := hdone
  have hans := (settles_apply hb (TierCell.clipped_of cfg _ b) hsettles).2 k x hx
  rw [map_take] at hans
  exact hans

end Runs

/-! ## READs of what was never promoted -/

section Reads

variable {cfg : TierConfig}

theorem ReadWriteRun.errorFree {σ : Type} {bs : Nat} {s : σ} {a : Serial.Act bs}
    (h : ReadWriteRun s a) : ErrorFree s a := by
  cases a with
  | fail _ _ => exact h
  | _ => trivial

theorem applyAll_cache {v : TierCell} (reqs : List (BlockRequest cfg.blockSize))
    (h : ∀ req ∈ reqs, req.ioType = .read ∨ req.ioType = .write) :
    (TierCell.applyAll cfg v reqs).cache = flat v.cache reqs := by
  induction reqs using List.reverseRecOn with
  | nil => rfl
  | append_singleton reqs req ih =>
    obtain ⟨hreqs, hreq⟩ := forall_mem_append.mp h
    rw [TierCell.applyAll_snoc, flat_snoc, ← ih hreqs]
    rcases hreq req (mem_singleton_self _) with hio | hio
    · rw [applyWrite_of_ne (by rw [hio]; simp)]
      simp only [TierCell.apply, hio]
    · rw [applyWrite_write hio]
      simp only [TierCell.apply, hio]

/--
**A READ and the backend.** In a run of READs and WRITEs over zeroed metadata, a
READ returns the backend's bytes under the WRITEs before it exactly if each byte
it asks for was written, or is the same in the cache file as on the backend.
-/
theorem tier_read_flat_iff (cfg : TierConfig) (cacheData backData : Bytes)
    (s : Serial (policy cfg))
    (hr : Reachable Serial.step ReadWriteRun
      (tierStart cfg cacheData (fun _ => unpromoted) backData) s)
    (b : Nat) (hb : b < cfg.blocksCount) (k : Nat) (x : Completion cfg.blockSize)
    (hx : (s.completed b)[k]? = some x) (hio : x.req.ioType = .read) :
    Answers x.req (flat (block cfg.blockSize b backData) ((doneReqs s b).take k)) x.data
      ↔ ∀ i < x.req.size, Overwritten ((doneReqs s b).take k) (x.req.offset + i)
          ∨ cacheData (b * cfg.blockSize + (x.req.offset + i))
            = backData (b * cfg.blockSize + (x.req.offset + i)) := by
  have herr : Reachable Serial.step ErrorFree
      (tierStart cfg cacheData (fun _ => unpromoted) backData) s :=
    hr.mono fun _ _ => ReadWriteRun.errorFree
  have hkind : ∀ req ∈ (doneReqs s b).take k, req.ioType = .read ∨ req.ioType = .write :=
    fun req hreq => doneReqs_kind (fun _ _ _ h => h) hr b req (mem_of_mem_take hreq)
  -- what it returns is the cache file under the WRITEs
  have hans : Answers x.req (flat (block cfg.blockSize b cacheData) ((doneReqs s b).take k))
      x.data := by
    have h := tier_answers hb herr hx
    rw [applyAll_cache _ hkind] at h
    exact h
  have hin := x.req.inBlock
  constructor
  · intro h i hi
    have heq := (hans hio i hi).symm.trans (h hio i hi)
    rwa [flat_eq_iff, block_of_lt (by omega), block_of_lt (by omega)] at heq
  · intro h _ i hi
    refine (hans hio i hi).trans ((flat_eq_iff _).mpr ?_)
    rw [block_of_lt (by omega), block_of_lt (by omega)]
    exact h i hi

/-- A WRITE of all of block 0, then a READ of it. -/
theorem tier_write_read : ∃ s : Serial (policy smallTier),
    ∃ x : Completion smallTier.blockSize, (s.completed 0)[1]? = some x
      ∧ Answers x.req (flat (block 2 0 (fun _ => 7)) ((doneReqs s 0).take 1)) x.data := by
  have hrun : (run Serial.step ReadWriteRun
      (tierStart smallTier (fun _ => 0) (fun _ => unpromoted) (fun _ => 7))
      [.accept (wholeRequest .write 0 5) (fun _ => 0), .send 0, .send 0, .finish 0,
        .accept (wholeRequest .read 0 0) (fun _ => 0), .send 0, .finish 0]).map
      (fun s => ((s.completed 0)[1]?).any fun x => decide (x.req.ioType = .read
        ∧ x.req.offset = 0 ∧ x.req.size = 2
        ∧ ((doneReqs s 0).take 1).map (fun r => (r.ioType, r.offset, r.size)) = [(.write, 0, 2)]))
      = some true := by decide +kernel
  obtain ⟨s, hr, hp⟩ := Reachable.of_run_test hrun
  obtain ⟨x, hx, hp⟩ := (Option.any_eq_true _ _).mp hp
  obtain ⟨hio, hoff, hsize, hwrite⟩ := of_decide_eq_true hp
  refine ⟨s, x, hx, (tier_read_flat_iff _ _ _ s hr 0 (by decide) 1 x hx hio).mpr ?_⟩
  intro i hi
  obtain ⟨r, hr', htype⟩ := mem_map.mp (hwrite ▸ mem_singleton_self _ :
    (IoType.write, 0, 2) ∈ ((doneReqs s 0).take 1).map fun r => (r.ioType, r.offset, r.size))
  refine Or.inl ⟨r, hr', congrArg Prod.fst htype, ?_⟩
  have hro : r.offset = 0 := congrArg (fun t => t.2.1) htype
  have hrs : r.size = 2 := congrArg (fun t => t.2.2) htype
  rw [hro, hrs, hoff]
  omega

/-- A READ of block 0 of an empty cache in front of a backend full of sevens. -/
theorem tier_first_read : ∃ s : Serial (policy smallTier),
    Reachable Serial.step ReadWriteRun
      (tierStart smallTier (fun _ => 0) (fun _ => unpromoted) (fun _ => 7)) s
      ∧ ∃ x : Completion smallTier.blockSize, (s.completed 0)[0]? = some x
        ∧ ¬ Answers x.req (flat (block 2 0 (fun _ => 7)) ((doneReqs s 0).take 0)) x.data := by
  have hrun : (run Serial.step ReadWriteRun
      (tierStart smallTier (fun _ => 0) (fun _ => unpromoted) (fun _ => 7))
      [.accept (wholeRequest .read 0 0) (fun _ => 0), .send 0, .finish 0]).map
      (fun s => ((s.completed 0)[0]?).any fun x => decide (x.req.ioType = .read
        ∧ x.req.offset = 0 ∧ x.req.size = 2 ∧ x.data 0 = 0)) = some true := by decide +kernel
  obtain ⟨s, hr, hp⟩ := Reachable.of_run_test hrun
  obtain ⟨x, hx, hp⟩ := (Option.any_eq_true _ _).mp hp
  obtain ⟨hio, hoff, hsize, hdata⟩ := of_decide_eq_true hp
  refine ⟨s, hr, x, hx, fun h => ?_⟩
  have hbyte := h hio 0 (by omega)
  rw [hdata, hoff, take_zero] at hbyte
  cases hbyte

end Reads

/-! ## PROMOTE of what was written -/

/-- Every READ of block `b` returns the same in both states. -/
def SeenSame (cfg : TierConfig) (b : Nat) (p q : TierState cfg.blocksCount) : Prop :=
  ∀ (req : BlockRequest cfg.blockSize) (scratch : Bytes), req.ioType = .read → req.block = b →
    ∀ i < req.size, ((policy cfg).execute req scratch p).1.dataPtr i
      = ((policy cfg).execute req scratch q).1.dataPtr i

section Promote

variable {cfg : TierConfig} {b : Nat} {p q : TierState cfg.blocksCount}

theorem read_sees {req : BlockRequest cfg.blockSize} {scratch : Bytes} (hp : Wired p)
    (hb : req.block < cfg.blocksCount) :
    Answers req (block cfg.blockSize req.block p.cacheData)
      ((policy cfg).execute req scratch p).1.dataPtr := by
  have hcell := LocalPolicy.execute_cell (L := tierLocal cfg) req scratch hp
  have hbufs := congrArg Prod.fst hcell
  dsimp only at hbufs
  rw [hbufs]
  exact TierCell.execute_answers hb scratch

def wholeRead (cfg : TierConfig) (b : Nat) : BlockRequest cfg.blockSize :=
  ⟨.read, fun _ => 0, 0, cfg.blockSize, b, 0, by omega⟩

theorem seenSame_iff (hp : Wired p) (hq : Wired q) (hb : b < cfg.blocksCount) :
    SeenSame cfg b p q
      ↔ block cfg.blockSize b p.cacheData = block cfg.blockSize b q.cacheData := by
  constructor
  · intro h
    funext i
    by_cases hi : i < cfg.blockSize
    · have heq := h (wholeRead cfg b) (fun _ => 0) rfl rfl i hi
      have hseen : ∀ {p : TierState cfg.blocksCount}, Wired p →
          ((policy cfg).execute (wholeRead cfg b) (fun _ => 0) p).1.dataPtr i
            = block cfg.blockSize b p.cacheData (0 + i) := fun hp => read_sees hp hb rfl i hi
      rw [hseen hp, hseen hq, Nat.zero_add] at heq
      exact heq
    · rw [clipped_block _ _ _ i (by omega), clipped_block _ _ _ i (by omega)]
  · rintro h req scratch hio rfl i hi
    rw [read_sees hp hb hio i hi, read_sees hq hb hio i hi, h]

section Executed

variable {cacheData backData : Bytes} {blockMeta : Nat → BlockStatus}
  {s s' : Serial (policy cfg)} {x : Completion cfg.blockSize}
  {ok : Serial (policy cfg) → Serial.Act cfg.blockSize → Prop}
  (hr : Reachable Serial.step ok (tierStart cfg cacheData blockMeta backData) s)

include hr

theorem wired_reachable : Wired s.pol :=
  (LocalPolicy.runs_reachable ok_tierStart (fun _ => rfl) hr).ok

theorem tier_executed (hb : b < cfg.blocksCount)
    (hr' : Reachable Serial.step ok s s') (hq : s.queue b = [])
    (hq' : s'.queue b = []) (hdone : s'.completed b = s.completed b ++ [x]) :
    TierCell.of cfg s'.pol b = TierCell.apply cfg x.req (TierCell.of cfg s.pol b) := by
  have hreqs : doneReqs s' b = doneReqs s b ++ [x.req] := by
    unfold doneReqs
    rw [hdone, map_append, map_singleton]
  rw [tier_at_rest hb (hr.trans hr') hq', hreqs, TierCell.applyAll_snoc, ← tier_at_rest hb hr hq]

theorem promoted_cache (hb : b < cfg.blocksCount)
    (hr' : Reachable Serial.step ok s s') (hq : s.queue b = [])
    (hq' : s'.queue b = []) (hdone : s'.completed b = s.completed b ++ [x])
    (hio : x.req.ioType = .promote) : block cfg.blockSize b s'.pol.cacheData
      = block cfg.blockSize b s.pol.backData := by
  have hcell := congrArg TierCell.cache (tier_executed hr hb hr' hq hq' hdone)
  simp only [TierCell.apply, hio] at hcell
  exact hcell

end Executed

/--
**PROMOTE goes unseen exactly if the stores agree.** From any state of any run,
with nothing under way for the block, to a state in which one PROMOTE of the block
has been executed, whatever the other blocks did meanwhile.
-/
theorem promote_unseen_iff (cfg : TierConfig) (cacheData : Bytes) (blockMeta : Nat → BlockStatus)
    (backData : Bytes) (s s' : Serial (policy cfg)) (b : Nat)
    (x : Completion cfg.blockSize)
    (hr : Reachable Serial.step (fun _ _ => True) (tierStart cfg cacheData blockMeta backData) s)
    (hr' : Reachable Serial.step (fun _ _ => True) s s') (hb : b < cfg.blocksCount)
    (hq : s.queue b = []) (hq' : s'.queue b = [])
    (hdone : s'.completed b = s.completed b ++ [x]) (hio : x.req.ioType = .promote) :
    SeenSame cfg b s'.pol s.pol
      ↔ block cfg.blockSize b s.pol.cacheData = block cfg.blockSize b s.pol.backData := by
  rw [seenSame_iff (wired_reachable (hr.trans hr')) (wired_reachable hr) hb,
    promoted_cache hr hb hr' hq hq' hdone hio]
  exact eq_comm

/-- A PROMOTE over stores that agree. -/
theorem promote_unseen_agreeing : ∃ s s' : Serial (policy smallTier),
    (∃ x, s'.completed 0 = s.completed 0 ++ [x] ∧ x.req.ioType = .promote)
      ∧ SeenSame smallTier 0 s'.pol s.pol := by
  obtain ⟨s', hr', hq', x, hdone, hreq⟩ := exists_executed (fun _ _ => True)
    (s := tierStart smallTier (fun _ => 7) (fun _ => unpromoted) (fun _ => 7))
    (wholeRequest .promote 0 0) trivial (fun _ => trivial) (fun _ => trivial) rfl rfl (by decide)
  have hio : x.req.ioType = .promote := by rw [hreq]; rfl
  exact ⟨_, s', ⟨x, hdone, hio⟩, (promote_unseen_iff smallTier _ _ _ _ s' 0 x .init hr' (by decide)
    rfl (by rw [hq']; rfl) hdone hio).mpr rfl⟩

/-- Block 0 is written, and a PROMOTE of it brings the backend's bytes back. -/
theorem promote_loses_write : ∃ s s' : Serial (policy smallTier),
    Reachable Serial.step ErrorFree
      (tierStart smallTier (fun _ => 0) (fun _ => unpromoted) (fun _ => 0)) s
      ∧ Reachable Serial.step ErrorFree s s' ∧ s.queue 0 = [] ∧ s'.queue 0 = []
      ∧ s.pol.blockMeta 0 = promotedUnflushed
      ∧ (∃ x, s'.completed 0 = s.completed 0 ++ [x] ∧ x.req.ioType = .promote)
      ∧ ¬ SeenSame smallTier 0 s'.pol s.pol := by
  have hrun : (run Serial.step ErrorFree
      (tierStart smallTier (fun _ => 0) (fun _ => unpromoted) (fun _ => 0))
      [.accept (wholeRequest .write 0 5) (fun _ => 0), .send 0, .send 0, .finish 0]).map
      (fun s => (s.queue 0).isEmpty && decide (s.pol.blockMeta 0 = promotedUnflushed
        ∧ s.pol.inDiscardProcess 0 = false ∧ s.pol.cacheData 0 = 5 ∧ s.pol.backData 0 = 0
        ∧ ∀ op ∈ (map smallTier (wholeRequest .promote 0 0) s.pol).1,
          op.assertion = true)) = some true := by decide +kernel
  obtain ⟨s, hr, hp⟩ := Reachable.of_run_test hrun
  rw [Bool.and_eq_true, List.isEmpty_iff] at hp
  obtain ⟨hdirty, hd, hcache, hback, ha⟩ := of_decide_eq_true hp.2
  obtain ⟨s', hr', hqueue, x, hdone, hreq⟩ := exists_executed ErrorFree
    (wholeRequest .promote 0 0) trivial (fun _ => trivial) (fun _ => trivial) hp.1 hd ha
  have hio : x.req.ioType = .promote := by rw [hreq]; rfl
  have hq' : s'.queue 0 = [] := by rw [hqueue]; rfl
  refine ⟨s, s', hr, hr', hp.1, hq', hdirty, ⟨x, hdone, hio⟩, fun hseen => ?_⟩
  have hsame := (seenSame_iff (wired_reachable (hr.trans hr')) (wired_reachable hr)
    (by decide)).mp hseen
  rw [promoted_cache hr (by decide) hr' hp.1 hq' hdone hio] at hsame
  have hbyte := congrFun hsame 0
  rw [block_of_lt (by decide), block_of_lt (by decide)] at hbyte
  cases hback.symm.trans (hbyte.trans hcache)

end Promote

/-! ## The status of a block -/

/-- READs, WRITEs, FLUSHes and PROMOTEs without store errors. -/
def TierRun {σ : Type} {bs : Nat} (_ : σ) : Serial.Act bs → Prop
  | .accept req _ =>
    req.ioType = .read ∨ req.ioType = .write ∨ req.ioType = .flush ∨ req.ioType = .promote
  | .fail _ _ => False
  | _ => True

instance {σ : Type} {bs : Nat} (s : σ) (act : Serial.Act bs) : Decidable (TierRun s act) :=
  match act with
  | .accept _ _ => inferInstanceAs (Decidable (_ ∨ _))
  | .fail _ _ => inferInstanceAs (Decidable False)
  | .send _ | .finish _ => inferInstanceAs (Decidable True)

section Status

variable {cfg : TierConfig} {v₀ v : TierCell} {reqs : List (BlockRequest cfg.blockSize)}

/-- Some request has put data into the cache. -/
def Filled (reqs : List (BlockRequest cfg.blockSize)) : Prop :=
  ∃ req ∈ reqs, req.ioType = .write ∨ req.ioType = .promote

theorem filled_snoc {req : BlockRequest cfg.blockSize} : Filled (reqs ++ [req])
    ↔ Filled reqs ∨ req.ioType = .write ∨ req.ioType = .promote := by
  unfold Filled
  simp only [mem_append, mem_singleton, or_and_right, exists_or, exists_eq_left]

structure Told (v₀ v : TierCell) (reqs : List (BlockRequest cfg.blockSize)) : Prop where
  word : v.word = v.status
  /-- A filled block is dirty, or the stores agree. -/
  filled : Filled reqs → v.status = promotedUnflushed ∨ v.cache = v.back
  /-- One that was never filled is what it was, whatever its status. -/
  unfilled : ¬ Filled reqs → v.status ≠ promotedUnflushed ∧ v.cache = v₀.cache ∧ v.back = v₀.back

theorem Told.apply {req : BlockRequest cfg.blockSize} (h : Told v₀ v reqs)
    (hreq : req.ioType = .read ∨ req.ioType = .write ∨ req.ioType = .flush
      ∨ req.ioType = .promote) :
    Told v₀ (TierCell.apply cfg req v) (reqs ++ [req]) := by
  rcases hreq with hio | hio | hio | hio
  · have hiff : Filled (reqs ++ [req]) ↔ Filled reqs := by simp [filled_snoc, hio]
    simp only [TierCell.apply, hio]
    exact ⟨h.word, fun hf => h.filled (hiff.mp hf), fun hf => h.unfilled (mt hiff.mpr hf)⟩
  · have hfilled : Filled (reqs ++ [req]) := filled_snoc.mpr (Or.inr (Or.inl hio))
    simp only [TierCell.apply, hio]
    exact ⟨rfl, fun _ => Or.inl rfl, fun hf => absurd hfilled hf⟩
  · -- a dirty block is written back; any other is only marked
    have hiff : Filled (reqs ++ [req]) ↔ Filled reqs := by simp [filled_snoc, hio]
    simp only [TierCell.apply, hio, TierCell.flushed]
    refine ⟨rfl, fun hf => Or.inr ?_, fun hf => ⟨(by decide : flushed ≠ promotedUnflushed), ?_⟩⟩
    · by_cases hst : v.status = promotedUnflushed
      · rw [if_pos hst]
      · rw [if_neg hst]
        exact (h.filled (hiff.mp hf)).resolve_left hst
    · obtain ⟨hst, hcache, hback⟩ := h.unfilled (mt hiff.mpr hf)
      rw [if_neg hst]
      exact ⟨hcache, hback⟩
  · have hfilled : Filled (reqs ++ [req]) := filled_snoc.mpr (Or.inr (Or.inr hio))
    simp only [TierCell.apply, hio]
    exact ⟨rfl, fun _ => Or.inr rfl, fun hf => absurd hfilled hf⟩

theorem told_applyAll (hst : v₀.status ≠ promotedUnflushed) (hw : v₀.word = v₀.status)
    (reqs : List (BlockRequest cfg.blockSize))
    (hreqs : ∀ req ∈ reqs, req.ioType = .read ∨ req.ioType = .write ∨ req.ioType = .flush
      ∨ req.ioType = .promote) : Told v₀ (TierCell.applyAll cfg v₀ reqs) reqs := by
  induction reqs using List.reverseRecOn with
  | nil => exact ⟨hw, fun ⟨_, hmem, _⟩ => absurd hmem (by simp), fun _ => ⟨hst, rfl, rfl⟩⟩
  | append_singleton reqs req ih =>
    obtain ⟨hpre, hreq⟩ := forall_mem_append.mp hreqs
    rw [TierCell.applyAll_snoc]
    exact (ih hpre).apply (hreq req (mem_singleton_self _))

/--
**A block marked FLUSHED.** Its bytes in the cache are those on the backend exactly
if a WRITE or a PROMOTE has filled it, or they were the same to begin with.
-/
theorem flushed_agrees_iff (cfg : TierConfig) (cacheData backData : Bytes)
    (s : Serial (policy cfg))
    (hr : Reachable Serial.step TierRun (tierStart cfg cacheData (fun _ => unpromoted) backData) s)
    (b : Nat) (hb : b < cfg.blocksCount) (hq : s.queue b = [])
    (hst : s.pol.blockMeta b = flushed) :
    block cfg.blockSize b s.pol.cacheData = block cfg.blockSize b s.pol.backData
      ↔ Filled (doneReqs s b)
        ∨ block cfg.blockSize b cacheData = block cfg.blockSize b backData := by
  have hkind : ∀ req ∈ doneReqs s b, req.ioType = .read ∨ req.ioType = .write
      ∨ req.ioType = .flush ∨ req.ioType = .promote :=
    doneReqs_kind (fun _ _ _ h => h) hr b
  have hstatus : (firstCell cfg cacheData (fun _ => unpromoted) backData b).status
      = unpromoted := by
    unfold firstCell TierCell.of
    split <;> rfl
  have hclean : (firstCell cfg cacheData (fun _ => unpromoted) backData b).status
      ≠ promotedUnflushed := by
    rw [hstatus]
    decide
  have htold := told_applyAll hclean hstatus.symm _ hkind
  rw [← tier_at_rest hb hr hq] at htold
  by_cases hfilled : Filled (doneReqs s b)
  · -- a filled block is dirty or on the backend, and it is not marked as dirty
    refine ⟨fun _ => Or.inl hfilled, fun _ => (htold.filled hfilled).resolve_left ?_⟩
    intro hdirty
    have hword := htold.word.trans hdirty
    cases hst.symm.trans hword
  · obtain ⟨_, hcache, hback⟩ := htold.unfilled hfilled
    have hc : block cfg.blockSize b s.pol.cacheData = block cfg.blockSize b cacheData := hcache
    have hbk : block cfg.blockSize b s.pol.backData = block cfg.blockSize b backData := hback
    rw [hc, hbk]
    exact (or_iff_right hfilled).symm

/-- A WRITE of block 0, and a FLUSH of it. -/
theorem flushed_agrees_written : ∃ s : Serial (policy smallTier),
    s.pol.blockMeta 0 = flushed ∧ s.pol.backData 0 = 5
      ∧ block 2 0 s.pol.cacheData = block 2 0 s.pol.backData := by
  have hrun : (run Serial.step TierRun
      (tierStart smallTier (fun _ => 0) (fun _ => unpromoted) (fun _ => 7))
      [.accept (wholeRequest .write 0 5) (fun _ => 0), .send 0, .send 0, .finish 0,
        .accept (wholeRequest .flush 0 0) (fun _ => 0), .send 0, .send 0, .finish 0]).map
      (fun s => (s.queue 0).isEmpty && decide (s.pol.blockMeta 0 = flushed
        ∧ s.pol.backData 0 = 5 ∧ .write ∈ (doneReqs s 0).map BlockRequest.ioType))
      = some true := by decide +kernel
  obtain ⟨s, hr, hp⟩ := Reachable.of_run_test hrun
  rw [Bool.and_eq_true, List.isEmpty_iff] at hp
  obtain ⟨hst, hback, hwrite⟩ := of_decide_eq_true hp.2
  obtain ⟨req, hreq, hio⟩ := mem_map.mp hwrite
  exact ⟨s, hst, hback, (flushed_agrees_iff smallTier _ _ s hr 0 (by decide) hp.1 hst).mpr
    (Or.inl ⟨req, hreq, Or.inl hio⟩)⟩

/-- A FLUSH of block 0, which was never promoted. -/
theorem flush_of_unpromoted : ∃ s : Serial (policy smallTier),
    Reachable Serial.step TierRun
      (tierStart smallTier (fun _ => 0) (fun _ => unpromoted) (fun _ => 7)) s
      ∧ (∀ b, s.queue b = []) ∧ s.pol.blockMeta 0 = flushed
      ∧ block 2 0 s.pol.cacheData ≠ block 2 0 s.pol.backData := by
  obtain ⟨s, hr, hqueue, x, hdone, hreq⟩ := exists_executed TierRun
    (s := tierStart smallTier (fun _ => 0) (fun _ => unpromoted) (fun _ => 7))
    (wholeRequest .flush 0 0) (by decide) (fun _ => trivial) (fun _ => trivial) rfl rfl (by decide)
  have hq : ∀ b, s.queue b = [] := by
    intro b
    rw [hqueue]
    exact congrFun (Function.update_eq_self 0 fun _ => []) b
  have hcell := tier_executed .init (by decide) hr rfl (hq 0) hdone
  rw [hreq] at hcell
  refine ⟨s, hr, hq, congrArg TierCell.word hcell, fun heq => ?_⟩
  have hcache : block 2 0 s.pol.cacheData = block 2 0 fun _ => 0 := congrArg TierCell.cache hcell
  have hback : block 2 0 s.pol.backData = block 2 0 fun _ => 7 := congrArg TierCell.back hcell
  have hbyte := congrFun (hcache.symm.trans (heq.trans hback)) 0
  cases hbyte

end Status

end HDCS.Proof
