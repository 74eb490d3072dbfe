import HDCS.Core.LinkedPolicy
import HDCS.Proof.LruLinklist
import HDCS.Proof.Restart

/-!
# The lists of the policy, and a full cache

The linked lists hold the sequences `HDCS/Core/CachePolicy.lean` works with, from
the constructor on and over every run, whatever fails. So as long as the process
lives the policy over linked lists is the policy over sequences
(`linked_reachable`), and what is proved about the one holds of the other.

They part where `free_lru` is empty. On sequences `get_head` then yields nothing,
and a miss is served past the cache; linked, it reads the key of a node that is
not there.
-/

namespace HDCS.Proof

open Lib LruList Lib.Machine Serial

variable {n : Nat}

structure Linked (x : LinkedState n) : Prop where
  free : Represents x.freeLru x.rest.freeLru
  dirty : Represents x.dirtyLru x.rest.dirtyLru
  clean : Represents x.cleanLru x.rest.cleanLru

theorem Linked.of_rest {x : LinkedState n} {r : CacheState n} (h : Linked x)
    (hf : r.freeLru = x.rest.freeLru) (hd : r.dirtyLru = x.rest.dirtyLru)
    (hc : r.cleanLru = x.rest.cleanLru) : Linked { x with rest := r } :=
  ⟨hf ▸ h.free, hd ▸ h.dirty, hc ▸ h.clean⟩

/-! ## Construction -/

section New

variable {m : Nat → CachePolicy.EntryToBlock} {x : LinkedState n} {k : Fin n}

theorem Linked.pairEntry (h : Linked x) : ∃ x', LinkedPolicy.pairEntry m x k = some x'
    ∧ x'.rest = CachePolicy.pairEntry m x.rest k ∧ Linked x' := by
  unfold LinkedPolicy.pairEntry CachePolicy.pairEntry
  by_cases hv : (m k).valid
  · simp only [hv, if_true]
    by_cases hd : (m k).status = promotedUnflushed
    · obtain ⟨l, hl, hr⟩ := h.dirty.touchKey (m k).block
      simp only [hd, if_true, hl]
      exact ⟨_, rfl, rfl, h.free, hr, h.clean⟩
    · by_cases hc : (m k).status = flushed
      · obtain ⟨l, hl, hr⟩ := h.clean.touchKey (m k).block
        simp only [hc, if_true, hl]
        exact ⟨_, rfl, rfl, h.free, h.dirty, hr⟩
      · simp only [if_neg hd, if_neg hc]
        exact ⟨_, rfl, rfl, h.free, h.dirty, h.clean⟩
  · obtain ⟨l, hl, hr⟩ := h.free.touchKey k
    simp only [if_neg hv, hl]
    exact ⟨_, rfl, rfl, hr, h.dirty, h.clean⟩

theorem Linked.pairEntries : ∀ (ks : List (Fin n)) {x : LinkedState n}, Linked x →
    ∃ x', ks.foldlM (LinkedPolicy.pairEntry m) x = some x'
      ∧ x'.rest = ks.foldl (CachePolicy.pairEntry m) x.rest ∧ Linked x'
  | [], x, h => ⟨x, rfl, rfl, h⟩
  | k :: ks, x, h => by
    obtain ⟨x₁, h₁, hr₁, hl₁⟩ := h.pairEntry (m := m) (k := k)
    obtain ⟨x₂, h₂, hr₂, hl₂⟩ := Linked.pairEntries ks hl₁
    refine ⟨x₂, ?_, ?_, hl₂⟩
    · rw [List.foldlM_cons, h₁]
      exact h₂
    · rw [hr₂, hr₁, List.foldl_cons]

/-- **The constructor builds the lists**, whatever the metadata says. -/
theorem linked_new (cfg : CacheConfig) (cacheData : Bytes) (blockMeta : Nat → BlockStatus)
    (backData : Bytes) : ∃ x, LinkedPolicy.new cfg cacheData blockMeta backData = some x
      ∧ x.rest = CachePolicy.new cfg cacheData blockMeta backData ∧ Linked x :=
  Linked.pairEntries (List.finRange cfg.entriesCount)
    ⟨represents_new, represents_new, represents_new⟩

end New

/-! ## `map` -/

section Map

variable {cfg : CacheConfig} {req : BlockRequest cfg.blockSize} {x : LinkedState n}

def Misses (cfg : CacheConfig) (req : BlockRequest cfg.blockSize) (s : CacheState n) : Prop :=
  s.entry req.block = none
    ∧ (req.ioType = .read ∨ req.ioType = .write ∧ cfg.cacheMode ≠ .readOnly)

def counted (cfg : CacheConfig) (req : BlockRequest cfg.blockSize) (s : CacheState n) :
    CacheState n :=
  { s with timeoutComps := s.timeoutComps
      + (CachePolicy.newTimeoutComp cfg s.timeoutComps req.block).toList.length }

def missChain (cfg : CacheConfig) (req : BlockRequest cfg.blockSize) (s : CacheState n)
    (e : Fin n) : List (BlockOp n) :=
  let comp := CachePolicy.newTimeoutComp cfg s.timeoutComps req.block
  if req.ioType = .read then CachePolicy.readMiss cfg req e (s.entries e).entryId comp
  else CachePolicy.writeMiss cfg req e (s.entries e).entryId comp

theorem Misses.map {s : CacheState n} {e : Fin n} (h : Misses cfg req s)
    (he : getHead s.freeLru = some e) : CachePolicy.map cfg req s
      = (missChain cfg req s e, CachePolicy.attach req.block e (counted cfg req s)) := by
  unfold CachePolicy.map missChain
  rcases h with ⟨hb, hio | ⟨hio, hm⟩⟩
  · simp only [hio, hb, he, if_true]
    rfl
  · simp only [hio, hb, he, if_neg hm]
    rfl

theorem Misses.linkedMap (h : Misses cfg req x.rest) : LinkedPolicy.map cfg req x
    = LinkedPolicy.takeFree req.block (missChain cfg req x.rest)
        { x with rest := counted cfg req x.rest } := by
  unfold LinkedPolicy.map
  rcases h with ⟨hb, hio | ⟨hio, hm⟩⟩
  · simp only [hio, hb]
    unfold missChain
    simp only [hio, if_true]
    rfl
  · simp only [hio, hb, if_neg hm]
    unfold missChain
    simp only [hio]
    rfl

theorem linkedMap_of_not_misses (h : ¬ Misses cfg req x.rest) :
    LinkedPolicy.map cfg req x = some (LinkedPolicy.mapRest cfg req x) := by
  unfold LinkedPolicy.map
  dsimp only
  cases hb : x.rest.entry req.block with
  | some e => cases req.ioType <;> rfl
  | none =>
    cases hio : req.ioType with
    | read => exact absurd ⟨hb, Or.inl hio⟩ h
    | write =>
      by_cases hm : cfg.cacheMode = .readOnly
      · simp only [if_pos hm]
      · exact absurd ⟨hb, Or.inr ⟨hio, hm⟩⟩ h
    | _ => rfl

theorem map_lists_of_not_misses {s : CacheState n} (h : ¬ Misses cfg req s) :
    (CachePolicy.map cfg req s).2.freeLru = s.freeLru
      ∧ (CachePolicy.map cfg req s).2.dirtyLru = s.dirtyLru
      ∧ (CachePolicy.map cfg req s).2.cleanLru = s.cleanLru := by
  unfold CachePolicy.map
  dsimp only
  cases hb : s.entry req.block with
  | some e =>
    cases req.ioType with
    | write => dsimp only; split <;> exact ⟨rfl, rfl, rfl⟩
    | _ => exact ⟨rfl, rfl, rfl⟩
  | none =>
    cases hio : req.ioType with
    | read => exact absurd ⟨hb, Or.inl hio⟩ h
    | write =>
      by_cases hm : cfg.cacheMode = .readOnly
      · simp only [if_pos hm, and_self]
      · exact absurd ⟨hb, Or.inr ⟨hio, hm⟩⟩ h
    | _ => exact ⟨rfl, rfl, rfl⟩

theorem Linked.map_full (h : Linked x) (hm : Misses cfg req x.rest) (hf : x.freeLru.length = 0) :
    LinkedPolicy.map cfg req x = none := by
  have hnil : x.rest.freeLru = [] := h.free.eq_nil hf
  have hhead : x.freeLru.getHead = none := by
    rw [h.free.getHead, hnil]
    rfl
  -- `get_head` follows the null pointer before anyone can look at it
  rw [hm.linkedMap]
  unfold LinkedPolicy.takeFree
  simp only [hhead]
  rfl

/-- **A `map` that returns does what it does on sequences**, and the lists stay in order. -/
theorem Linked.map {y : List (BlockOp n) × LinkedState n} (h : Linked x)
    (hy : LinkedPolicy.map cfg req x = some y) :
    (y.1, y.2.rest) = CachePolicy.map cfg req x.rest ∧ Linked y.2 := by
  by_cases hm : Misses cfg req x.rest
  · cases he : getHead x.rest.freeLru with
    | none =>
      have hlen : x.freeLru.length = 0 := by
        rw [h.free.length, List.head?_eq_none_iff.mp he]
        rfl
      rw [h.map_full hm hlen] at hy
      cases hy
    | some e =>
      obtain ⟨l, hl, hr⟩ := h.free.remove e
      have hhead := h.free.getHead.trans he
      rw [hm.linkedMap] at hy
      unfold LinkedPolicy.takeFree at hy
      simp only [hhead, hl, Option.bind_eq_bind, Option.bind_some] at hy
      rw [← Option.some.inj hy, hm.map he]
      exact ⟨rfl, hr, h.dirty, h.clean⟩
  · obtain ⟨hf, hd, hc⟩ := map_lists_of_not_misses hm
    rw [linkedMap_of_not_misses hm] at hy
    cases hy
    exact ⟨rfl, h.of_rest hf hd hc⟩

end Map

/-! ## What the operations do -/

section Send

variable {cfg : CacheConfig} {req : BlockRequest cfg.blockSize} {x : LinkedState n}

theorem Linked.sendUpdateLRU (h : Linked x) (cfg : CacheConfig) (b : Nat)
    (status : Option (Fin n)) (entry : Fin n) (comp : Option TimeoutComp) :
    ∃ x', LinkedPolicy.sendUpdateLRU cfg b status entry comp x = some x'
      ∧ x'.rest = CachePolicy.sendUpdateLRU cfg b status entry comp x.rest ∧ Linked x' := by
  unfold LinkedPolicy.sendUpdateLRU CachePolicy.sendUpdateLRU
  cases status with
  | none =>
    obtain ⟨clean, hclean, hc⟩ := h.clean.remove b
    obtain ⟨dirty, hdirty, hd⟩ := h.dirty.remove b
    obtain ⟨free, hfree, hf⟩ := h.free.touchKey entry
    simp only [hclean, hdirty, hfree]
    exact ⟨_, rfl, rfl, hf, hd, hc⟩
  | some e =>
    by_cases hst : (x.rest.entries e).status = promotedUnflushed
    · obtain ⟨clean, hclean, hc⟩ := h.clean.remove b
      obtain ⟨dirty, hdirty, hd⟩ := h.dirty.touchKey b
      simp only [if_pos hst, hclean, hdirty]
      refine ⟨_, rfl, rfl, ?_⟩
      unfold CachePolicy.addTimeout
      split <;> exact ⟨h.free, hd, hc⟩
    · obtain ⟨dirty, hdirty, hd⟩ := h.dirty.remove b
      obtain ⟨clean, hclean, hc⟩ := h.clean.touchKey b
      simp only [if_neg hst, hclean, hdirty]
      exact ⟨_, rfl, rfl, h.free, hd, hc⟩

/-- **No operation follows a bad pointer**, and each does what it does on sequences. -/
theorem Linked.send (h : Linked x) (req : BlockRequest cfg.blockSize) (op : BlockOp n) (m : Bufs) :
    ∃ m' x', LinkedPolicy.send cfg req op m x = some (m', x')
      ∧ (m', x'.rest) = CachePolicy.send cfg req op (m, x.rest) ∧ Linked x' := by
  cases op with
  | updateLRU status entry comp =>
    obtain ⟨x', hx', hrest, hl⟩ := h.sendUpdateLRU cfg req.block status entry comp
    refine ⟨m, x', ?_, ?_, hl⟩
    · unfold LinkedPolicy.send
      simp only [hx']
      rfl
    · rw [hrest]
      rfl
  | flushBlockToBackend id e d =>
    refine ⟨_, _, rfl, rfl, ?_⟩
    by_cases hst : (x.rest.entries e).status = promotedUnflushed
    · refine h.of_rest ?_ ?_ ?_ <;> simp only [CachePolicy.send, if_pos hst]
    · refine h.of_rest ?_ ?_ ?_ <;> simp only [CachePolicy.send, if_neg hst]
  | updateCacheMeta st x id =>
    refine ⟨_, _, rfl, rfl, ?_⟩
    cases st <;> exact h.of_rest rfl rfl rfl
  | _ => exact ⟨_, _, rfl, rfl, h.of_rest rfl rfl rfl⟩

end Send

/-! ## Whole runs -/

section Runs

variable {cfg : CacheConfig} {s s' : Serial (LinkedPolicy.policy cfg)}
  {x x' : LinkedState cfg.entriesCount}

def onSequences (x : LinkedState cfg.entriesCount) (s : Serial (LinkedPolicy.policy cfg)) :
    Serial (CachePolicy.policy cfg) :=
  ⟨x.rest, s.queue, s.accepted, s.completed⟩

theorem onSequences_accept {req : BlockRequest cfg.blockSize} {scratch : Bytes} (h : Linked x)
    (hx : s.pol = some x) (hx' : (s.accept req scratch).pol = some x') :
    Linked x' ∧ onSequences x' (s.accept req scratch) = (onSequences x s).accept req scratch := by
  cases hm : LinkedPolicy.map cfg req x with
  | none =>
    have hnone : (s.accept req scratch).pol = none := by
      simp only [accept, hx, Option.bind_some, hm]
    rw [hnone] at hx'
    cases hx'
  | some y =>
    obtain ⟨heq, hl⟩ := h.map hm
    have hpol : (s.accept req scratch).pol = some y.2 := by
      simp only [accept, hx, Option.bind_some, hm]
    obtain rfl : y.2 = x' := Option.some.inj (hpol.symm.trans hx')
    have hchain : (chainOf req scratch s.pol : Chain cfg.entriesCount cfg.blockSize)
        = chainOf (P := CachePolicy.policy cfg) req scratch x.rest := by
      simp only [chainOf, hx, Option.bind_some, hm, ← heq]
    refine ⟨hl, ?_⟩
    simp only [onSequences, accept, hchain, ← heq]

theorem onSequences_send {b : Nat} {c : Chain cfg.entriesCount cfg.blockSize}
    {cs : List (Chain cfg.entriesCount cfg.blockSize)} {op : BlockOp cfg.entriesCount}
    {ops : List (BlockOp cfg.entriesCount)} (h : Linked x) (hx : s.pol = some x)
    (hx' : (s.send b c cs op ops).pol = some x') :
    Linked x' ∧ onSequences x' (s.send b c cs op ops) = (onSequences x s).send b c cs op ops := by
  obtain ⟨m', y, hy, heq, hl⟩ := h.send c.req op c.bufs
  have hpol : (s.send b c cs op ops).pol = some y := by
    simp only [send, hx, Option.bind_some, hy]
  obtain rfl : y = x' := Option.some.inj (hpol.symm.trans hx')
  refine ⟨hl, ?_⟩
  simp only [onSequences, send, hx, Option.bind_some, hy, ← heq]

theorem dead_step {a : Act cfg.blockSize} (h : s.pol = none) (hs : s.step a = some s') :
    s'.pol = none := by
  rcases step_cases hs with ⟨req, scratch, rfl, _, rfl⟩
    | ⟨b, c, cs, op, ops, rfl, _, _, _, _, rfl⟩ | ⟨b, r, c, cs, op, ops, rfl, _, _, _, _, _, rfl⟩
    | ⟨b, c, cs, rfl, _, _, _, rfl⟩
  · simp only [accept, h, Option.bind_none]
  · simp only [send, h, Option.bind_none]
  · exact h
  · exact h

theorem onSequences_step {a : Act cfg.blockSize} (h : Linked x) (hx : s.pol = some x)
    (hs : s.step a = some s') (hx' : s'.pol = some x') :
    Linked x' ∧ (onSequences x s).step a = some (onSequences x' s') := by
  rcases step_cases hs with ⟨req, scratch, rfl, hd, rfl⟩
    | ⟨b, c, cs, op, ops, rfl, hq, hf, ho, ha, rfl⟩
    | ⟨b, r, c, cs, op, ops, rfl, hq, hf, ho, ha, hr, rfl⟩ | ⟨b, c, cs, rfl, hq, hf, ho, rfl⟩
  · obtain ⟨hl, heq⟩ := onSequences_accept h hx hx'
    rw [hx] at hd
    exact ⟨hl, heq ▸ step_accept hd⟩
  · obtain ⟨hl, heq⟩ := onSequences_send h hx hx'
    exact ⟨hl, heq ▸ step_send hq hf ho ha⟩
  · obtain rfl : x = x' := Option.some.inj (hx.symm.trans hx')
    exact ⟨h, step_fail (s := onSequences x s) hq hf ho ha hr⟩
  · obtain rfl : x = x' := Option.some.inj (hx.symm.trans hx')
    exact ⟨h, step_finish (s := onSequences x s) hq hf ho⟩

theorem linked_reachable {cacheData : Bytes} {blockMeta : Nat → BlockStatus} {backData : Bytes}
    (hr : Reachable step (fun _ _ => True)
      (start (P := LinkedPolicy.policy cfg)
        (LinkedPolicy.new cfg cacheData blockMeta backData)) s) (hx : s.pol = some x) :
    Linked x ∧ Reachable step (fun _ _ => True)
      (start (P := CachePolicy.policy cfg)
        (CachePolicy.new cfg cacheData blockMeta backData)) (onSequences x s) := by
  refine hr.invariant (I := fun s => ∀ x, s.pol = some x → Linked x
    ∧ Reachable step (fun _ _ => True)
      (start (P := CachePolicy.policy cfg)
        (CachePolicy.new cfg cacheData blockMeta backData)) (onSequences x s)) ?_ ?_ x hx
  · intro x hx
    obtain ⟨x₀, hnew, hrest, hl⟩ := linked_new cfg cacheData blockMeta backData
    obtain rfl : x₀ = x := Option.some.inj (hnew.symm.trans hx)
    refine ⟨hl, ?_⟩
    unfold onSequences
    rw [hrest]
    exact .init
  · intro s a s' ih _ hs x' hx'
    cases hx : s.pol with
    | none =>
      rw [dead_step hx hs] at hx'
      cases hx'
    | some x =>
      obtain ⟨hl, hrun⟩ := ih x hx
      obtain ⟨hl', hstep⟩ := onSequences_step hl hx hs hx'
      exact ⟨hl', .tail hrun trivial hstep⟩

end Runs

/-! ## The full cache -/

def bypassOp : IoType → BlockOp n
  | .read => .promoteFromBackend .dataPtr
  | _ => .writeToBackend .dataPtr

/-- `map` builds the chain past the cache and changes no list, entry or metadata. -/
def Bypasses (cfg : CacheConfig) (req : BlockRequest cfg.blockSize) (x : LinkedState n) : Prop :=
  ∃ timeoutComps, LinkedPolicy.map cfg req x
    = some ([bypassOp req.ioType], { x with rest := { x.rest with timeoutComps := timeoutComps } })

/--
**A full cache**: of the READs and WRITEs of blocks without an entry, those `map`
does not ask `free_lru` for are served past the cache, and no others. They are
the WRITEs in read-only mode.
-/
theorem fullCache_bypasses_iff (cfg : CacheConfig) (cacheData : Bytes)
    (blockMeta : Nat → BlockStatus) (backData : Bytes)
    (s : Serial (LinkedPolicy.policy cfg)) (x : LinkedState cfg.entriesCount)
    (hr : Reachable step (fun _ _ => True)
      (start (P := LinkedPolicy.policy cfg) (LinkedPolicy.new cfg cacheData blockMeta backData)) s)
    (hx : s.pol = some x) (hfull : x.freeLru.length = 0)
    (req : BlockRequest cfg.blockSize) (hio : req.ioType = .read ∨ req.ioType = .write)
    (hb : x.rest.entry req.block = none) :
    Bypasses cfg req x ↔ req.ioType = .write ∧ cfg.cacheMode = .readOnly := by
  obtain ⟨hl, _⟩ := linked_reachable hr hx
  constructor
  · rintro ⟨comps, hmap⟩
    by_contra hnot
    have hm : Misses cfg req x.rest :=
      ⟨hb, hio.imp id fun hw => ⟨hw, fun hmode => hnot ⟨hw, hmode⟩⟩⟩
    rw [hl.map_full hm hfull] at hmap
    cases hmap
  · rintro ⟨hw, hmode⟩
    have hm : ¬ Misses cfg req x.rest := by
      rintro ⟨_, hread | ⟨_, hne⟩⟩
      · cases hw.symm.trans hread
      · exact hne hmode
    refine ⟨(counted cfg req x.rest).timeoutComps, ?_⟩
    rw [linkedMap_of_not_misses hm]
    unfold LinkedPolicy.mapRest CachePolicy.map counted bypassOp
    simp only [hw, if_pos hmode]

/-- A small cache as it is linked, over a zeroed metadata store. -/
abbrev smallLinked (slots : Nat) (mode : CacheMode) :
    Serial (LinkedPolicy.policy (smallCache slots mode)) :=
  start (P := LinkedPolicy.policy (smallCache slots mode))
    (LinkedPolicy.new (smallCache slots mode) (fun _ => 0) (fun _ => 0) (fun _ => 0))

/-- The only slot is taken by block 0, and a WRITE of block 1 goes to the backend. -/
theorem readOnly_full_bypasses : ∃ x : LinkedState (smallCache 0 .readOnly).entriesCount,
    x.rest.entry 0 = some ⟨0, by decide⟩
      ∧ Bypasses (smallCache 0 .readOnly) (wholeRequest .write 1 7) x := by
  have hrun : (run step (fun _ _ => True) (smallLinked 0 .readOnly)
      [.accept (wholeRequest .read 0 0) (fun _ => 0)]).map
      (fun s => s.pol.any fun x => decide (x.freeLru.length = 0
        ∧ x.rest.entry 0 = some ⟨0, by decide⟩ ∧ x.rest.entry 1 = none)) = some true := by
    decide +kernel
  obtain ⟨s, hr, hp⟩ := Reachable.of_run_test hrun
  obtain ⟨x, hx, hp⟩ := (Option.any_eq_true _ _).mp hp
  obtain ⟨hfull, h0, h1⟩ := of_decide_eq_true hp
  exact ⟨x, h0, (fullCache_bypasses_iff _ _ _ _ s x hr hx hfull (wholeRequest .write 1 7)
    (Or.inr rfl) h1).mpr ⟨rfl, rfl⟩⟩

/-- The only slot is taken by block 0, and a READ of block 1 reads through the null head. -/
theorem full_read_dies : ∃ (s : Serial (LinkedPolicy.policy (smallCache 0 .writeBack)))
    (x : LinkedState (smallCache 0 .writeBack).entriesCount),
    Reachable step ErrorFree (smallLinked 0 .writeBack) s ∧ s.pol = some x
      ∧ (∀ e, x.rest.entry 0 = some e) ∧ x.freeLru.length = 0 ∧ x.rest.entry 1 = none
      ∧ LinkedPolicy.map (smallCache 0 .writeBack) (wholeRequest .read 1 0) x = none := by
  have hrun : (run step ErrorFree (smallLinked 0 .writeBack)
      [.accept (wholeRequest .read 0 0) (fun _ => 0), .send 0, .send 0, .send 0, .send 0,
        .finish 0]).map
      (fun s => s.pol.any fun x => decide ((∀ e, x.rest.entry 0 = some e)
        ∧ x.freeLru.length = 0 ∧ x.rest.entry 1 = none
        ∧ (LinkedPolicy.map (smallCache 0 .writeBack) (wholeRequest .read 1 0) x).isNone = true))
      = some true := by decide +kernel
  obtain ⟨s, hr, hp⟩ := Reachable.of_run_test hrun
  obtain ⟨x, hx, hp⟩ := (Option.any_eq_true _ _).mp hp
  obtain ⟨h0, hfull, h1, hmap⟩ := of_decide_eq_true hp
  exact ⟨s, x, hr, hx, h0, hfull, h1, Option.isNone_iff_eq_none.mp hmap⟩

end HDCS.Proof
