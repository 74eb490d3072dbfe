import Mathlib.Algebra.Order.BigOperators.Group.List
import Mathlib.Algebra.Order.Group.Nat
import Mathlib.Data.List.Perm.Subperm
import HDCS.Core.TierRequest
import HDCS.Proof.Splitting
import HDCS.Proof.TierCell
import HDCS.Proof.Wedged

/-!
# A promoted tier is a flat volume

The volume is one array of bytes; a WRITE replaces a range of it, a READ returns a
range of it. A tier that holds all of the volume in its cache does the same,
request by request: a request is cut into pieces that touch different blocks
(`Cut`), each chain works on its own cell (`tierLocal`), and the batch writes what
the chains have prepared, every block to its place.

While a request is executed, the cell of each of its blocks is where its chain has
come to, with one exception: from `prepare_request` to `submit_request` the chain
is one operation ahead of the cell (`ChainInv`). When the last chain is through,
every cell is what the request makes of it, and the pieces add up.
-/

namespace HDCS.Proof

open Lib Function Lib.Machine List

/-! ## The volume -/

def applyRequest (r : Request) (w : Bytes) : Bytes :=
  if r.ioType = .write then memcpy w r.offset r.data 0 r.length else w

/-- The volume after a sequence of requests. -/
def volume (w : Bytes) (rs : List Request) : Bytes := rs.foldl (fun w r => applyRequest r w) w

theorem volume_snoc (w : Bytes) (rs : List Request) (r : Request) :
    volume w (rs ++ [r]) = applyRequest r (volume w rs) := by
  unfold volume
  rw [foldl_append]
  rfl

section Pieces

variable {bs : Nat} {r : Request} {id : Nat} {qs : List (BlockRequest bs)} (hbs : 0 < bs)

include hbs

theorem Cut.block_self (h : Cut r id 0 r.offset r.length qs) (w : Bytes) {q : BlockRequest bs}
    (hq : q ∈ qs) : block bs q.block (applyRequest r w) = applyWrite q (block bs q.block w) := by
  obtain ⟨p, o, len, hpiece⟩ := h.piece q hq
  unfold applyRequest
  by_cases hio : r.ioType = .write
  · rw [if_pos hio, applyWrite_write (hpiece.ioType.trans hio), ← h.write hbs]
    exact block_foldl_self (g := fun q x => memcpy x q.offset q.data 0 q.size)
      (fun q _ => block_memcpy_self q.inBlock)
      (fun _ q _ hne => block_memcpy_other hne q.inBlock) qs w (h.nodup hbs) q hq
  · rw [if_neg hio, applyWrite_of_ne (fun hc => hio (hpiece.ioType.symm.trans hc))]

theorem Cut.block_other (h : Cut r id 0 r.offset r.length qs) (w : Bytes) {b : Nat}
    (hb : b ∉ qs.map BlockRequest.block) : block bs b (applyRequest r w) = block bs b w := by
  unfold applyRequest
  by_cases hio : r.ioType = .write
  · rw [if_pos hio, ← h.write hbs]
    exact block_foldl_other (fun q _ hne => block_memcpy_other hne q.inBlock) qs w hb
  · rw [if_neg hio]

end Pieces

/-! ## A cell of a promoted tier -/

def IsPlain (t : IoType) : Prop := t = .read ∨ t = .write ∨ t = .flush

instance (t : IoType) : Decidable (IsPlain t) := inferInstanceAs (Decidable (_ ∨ _))

section Cell

variable {cfg : TierConfig} {q : BlockRequest cfg.blockSize} {v : TierCell} {w : Bytes}

theorem TierCell.cache_apply (h : v.cache = w) (hio : IsPlain q.ioType) :
    (TierCell.apply cfg q v).cache = applyWrite q w := by
  subst h
  rcases hio with hio | hio | hio
  · rw [applyWrite_of_ne (by rw [hio]; simp)]
    simp only [TierCell.apply, hio]
  · rw [applyWrite_write hio]
    simp only [TierCell.apply, hio]
  · rw [applyWrite_of_ne (by rw [hio]; simp)]
    simp only [TierCell.apply, hio]

theorem TierCell.back_apply (h : v.cache = w) (hio : IsPlain q.ioType)
    (hback : q.ioType ≠ .write → v.status ≠ promotedUnflushed → v.back = w)
    (hst : (TierCell.apply cfg q v).status ≠ promotedUnflushed) :
    (TierCell.apply cfg q v).back = applyWrite q w := by
  rcases hio with hio | hio | hio
  · have hne : q.ioType ≠ .write := by rw [hio]; simp
    rw [applyWrite_of_ne hne]
    simp only [TierCell.apply, hio] at hst ⊢
    exact hback hne hst
  · simp only [TierCell.apply, hio] at hst
    exact absurd rfl hst
  · have hne : q.ioType ≠ .write := by rw [hio]; simp
    rw [applyWrite_of_ne hne]
    simp only [TierCell.apply, hio, TierCell.flushed]
    split
    · exact h
    · exact hback hne (by assumption)

end Cell

/-! ## Handing over -/

section Exec

variable {n : Nat}

theorem countP_handsOver {cfg : TierConfig} {q : BlockRequest cfg.blockSize}
    (hb : q.block < cfg.blocksCount) :
    (tierChain cfg q).countP BlockOp.handsOver = if q.ioType = .write then 1 else 0 := by
  unfold tierChain
  rw [dif_pos hb]
  unfold tierOps
  cases q.ioType with
  | read => unfold TierPolicy.readPromoted; dsimp only; split <;> rfl
  | write => unfold TierPolicy.writeOver; dsimp only; split <;> rfl
  | _ => rfl

theorem countP_handsOver_le {cfg : TierConfig} (q : BlockRequest cfg.blockSize) :
    (tierChain cfg q).countP BlockOp.handsOver ≤ 1 := by
  by_cases hb : q.block < cfg.blocksCount
  · rw [countP_handsOver hb]
    split <;> omega
  · unfold tierChain
    rw [dif_neg hb]
    simp

end Exec

section Request

variable {cfg : TierConfig}

def Handed (s : TierRequest cfg) (b : Nat) : Prop := b ∈ s.prepared.map Prod.fst

def Past (c : BlockChain cfg.blocksCount cfg.blockSize) (w v : TierCell)
    (sent : List (BlockOp cfg.blocksCount)) : Prop :=
  ∃ scratch, (c.bufs, v) = (tierLocal cfg).run c.req sent (⟨c.req.data, scratch⟩, w)

structure ChainInv (s : TierRequest cfg) (q : BlockRequest cfg.blockSize) (w : TierCell)
    (c : BlockChain cfg.blocksCount cfg.blockSize) : Prop where
  req : c.req = q
  /-- Between `prepare_request` and `submit_request` the chain is one operation ahead. -/
  ahead : Handed s q.block → s.submitted = false → c.waiting = true ∧ ∃ sent d,
    tierChain cfg q = sent ++ .executeDataStoreRequest q.block d :: c.ops
      ∧ Past c w (TierCell.of cfg s.pol q.block) sent ∧ (q.block, c.bufs.get d) ∈ s.prepared
  /-- At any other time the cell is where the chain is. -/
  level : (Handed s q.block → s.submitted = true) → ∃ sent,
    tierChain cfg q = sent ++ c.ops ∧ Past c w (TierCell.of cfg s.pol q.block) sent
  /-- Before it hands its block over, the chain does not wait. -/
  before : ¬ Handed s q.block →
    c.waiting = false ∧ c.ops.countP BlockOp.handsOver = (tierChain cfg q).countP BlockOp.handsOver
  /-- It hands its block over once. -/
  after : Handed s q.block → c.ops.countP BlockOp.handsOver = 0

structure ValidRequest (cfg : TierConfig) (r : Request) : Prop where
  plain : IsPlain r.ioType
  pos : 0 < r.length
  inVolume : r.offset + r.length ≤ cfg.blocksCount * cfg.blockSize
  blocks : (TierRequest.blockRequests cfg r).length ≤ 255

instance (cfg : TierConfig) (r : Request) : Decidable (ValidRequest cfg r) :=
  decidable_of_iff (IsPlain r.ioType ∧ 0 < r.length
    ∧ r.offset + r.length ≤ cfg.blocksCount * cfg.blockSize
    ∧ (TierRequest.blockRequests cfg r).length ≤ 255)
    ⟨fun h => ⟨h.1, h.2.1, h.2.2.1, h.2.2.2⟩, fun h => ⟨h.plain, h.pos, h.inVolume, h.blocks⟩⟩

structure RequestInv (V : Bytes) (r : Request) (w : Nat → TierCell) (s : TierRequest cfg) :
    Prop where
  valid : ValidRequest cfg r
  wired : Wired s.pol
  carries : ∀ b < cfg.blocksCount, (w b).cache = block cfg.blockSize b V
  clipped : ∀ b, (w b).Clipped cfg
  blocks : s.blocks = (TierRequest.blockRequests cfg r).map BlockRequest.block
  chains : ∀ q ∈ TierRequest.blockRequests cfg r,
    ∃ c, s.chains q.block = some c ∧ ChainInv s q (w q.block) c
  others : ∀ b ∉ s.blocks, s.chains b = none ∧ TierCell.of cfg s.pol b = w b
  nodup : (s.prepared.map Prod.fst).Nodup
  handed : ∀ b, Handed s b → b ∈ s.blocks
  count : s.sharedCount = s.blocks.length - s.prepared.length
  callbacks : s.callbacks
    = if s.prepared.length = s.blocks.length ∧ s.submitted = false then 1 else 0
  submitted : s.submitted = true → s.prepared.length = s.blocks.length

variable {V : Bytes} {r : Request} {w : Nat → TierCell} {s : TierRequest cfg}

theorem ValidRequest.cut (h : ValidRequest cfg r) :
    Cut r 0 0 r.offset r.length (TierRequest.blockRequests cfg r) :=
  cut_createBlockRequests cfg.blockSize_pos 0 h.pos

theorem ValidRequest.blocks_pos (h : ValidRequest cfg r) :
    0 < (TierRequest.blockRequests cfg r).length := by
  have hcut := h.cut
  cases hqs : TierRequest.blockRequests cfg r with
  | nil => rw [hqs] at hcut; cases hcut
  | cons => simp

theorem RequestInv.chain_of_mem {b : Nat} (h : RequestInv V r w s) (hb : b ∈ s.blocks) :
    ∃ q ∈ TierRequest.blockRequests cfg r, q.block = b
      ∧ ∃ c, s.chains b = some c ∧ ChainInv s q (w b) c := by
  rw [h.blocks] at hb
  obtain ⟨q, hq, rfl⟩ := mem_map.mp hb
  exact ⟨q, hq, rfl, h.chains q hq⟩

theorem RequestInv.chain_of_some {b : Nat} {c : BlockChain cfg.blocksCount cfg.blockSize}
    (h : RequestInv V r w s) (hc : s.chains b = some c) :
    b ∈ s.blocks ∧ ∃ q ∈ TierRequest.blockRequests cfg r, q.block = b
      ∧ ChainInv s q (w b) c := by
  by_cases hb : b ∈ s.blocks
  · obtain ⟨q, hq, hqb, c', hc', hinv⟩ := h.chain_of_mem hb
    obtain rfl : c' = c := Option.some.inj (hc'.symm.trans hc)
    exact ⟨hb, q, hq, hqb, hinv⟩
  · rw [(h.others b hb).1] at hc
    cases hc

theorem RequestInv.nodup_blocks (h : RequestInv V r w s) : s.blocks.Nodup := by
  rw [h.blocks]
  exact h.valid.cut.nodup cfg.blockSize_pos

theorem RequestInv.block_lt (h : RequestInv V r w s) {q : BlockRequest cfg.blockSize}
    (hq : q ∈ TierRequest.blockRequests cfg r) : q.block < cfg.blocksCount :=
  h.valid.cut.block_lt cfg.blockSize_pos h.valid.inVolume q hq

theorem RequestInv.prepared_le (h : RequestInv V r w s) :
    s.prepared.length ≤ s.blocks.length := by
  have := (subperm_of_subset h.nodup h.handed).length_le
  rwa [length_map] at this

theorem RequestInv.all_handed (h : RequestInv V r w s)
    (hlen : s.prepared.length = s.blocks.length) : ∀ b ∈ s.blocks, Handed s b := by
  have hperm := (subperm_of_subset h.nodup h.handed).perm_of_length_le (by rw [length_map, hlen])
  intro b hb
  exact hperm.mem_iff.mpr hb

theorem RequestInv.prepared_lt (h : RequestInv V r w s) {b : Nat} (hb : b ∈ s.blocks)
    (hnot : ¬ Handed s b) : s.prepared.length < s.blocks.length :=
  Nat.lt_of_le_of_ne h.prepared_le fun hlen => hnot (h.all_handed hlen b hb)

theorem ChainInv.frame {s' : TierRequest cfg} {q : BlockRequest cfg.blockSize} {v : TierCell}
    {c : BlockChain cfg.blocksCount cfg.blockSize} (h : ChainInv s q v c)
    (hprep : s'.prepared = s.prepared) (hsub : s'.submitted = s.submitted)
    (hcell : TierCell.of cfg s'.pol q.block = TierCell.of cfg s.pol q.block) :
    ChainInv s' q v c := by
  have hhanded : Handed s' q.block ↔ Handed s q.block := by
    unfold Handed
    rw [hprep]
  constructor
  · exact h.req
  · intro hh hs
    rw [hprep, hcell]
    exact h.ahead (hhanded.mp hh) (hsub ▸ hs)
  · intro hh
    rw [hcell]
    exact h.level fun hb => hsub ▸ hh (hhanded.mpr hb)
  · exact fun hh => h.before (mt hhanded.mpr hh)
  · exact fun hh => h.after (hhanded.mp hh)

/-! ## A request comes -/

theorem mapBlocks_spec (scratch : Nat → Bytes) :
    ∀ (qs : List (BlockRequest cfg.blockSize)) (s : TierRequest cfg), Wired s.pol →
      (qs.map BlockRequest.block).Nodup →
      ∃ pol chains, qs.foldl (TierRequest.mapBlock scratch) s
          = { s with pol := pol, chains := chains }
        ∧ Wired pol ∧ (∀ b, TierCell.of cfg pol b = TierCell.of cfg s.pol b)
        ∧ (∀ q ∈ qs, chains q.block = some ⟨q, tierChain cfg q, ⟨q.data, scratch q.block⟩, false⟩)
        ∧ ∀ b ∉ qs.map BlockRequest.block, chains b = s.chains b
  | [], s, hw, _ => ⟨s.pol, s.chains, rfl, hw, fun _ => rfl, by simp, fun _ _ => rfl⟩
  | q :: qs, s, hw, hn => by
    rw [map_cons, nodup_cons] at hn
    obtain ⟨hops, flags, hmap⟩ := tierMap_eq q hw
    have hw₁ : Wired (TierRequest.mapBlock scratch s q).pol := by
      show Wired (TierPolicy.map cfg q s.pol).2
      rw [hmap]
      exact hw
    obtain ⟨pol, chains, heq, hwired, hcells, hchains, hothers⟩ :=
      mapBlocks_spec scratch qs (TierRequest.mapBlock scratch s q) hw₁ hn.2
    refine ⟨pol, chains, ?_, hwired, ?_, ?_, ?_⟩
    · rw [foldl_cons, heq]
      rfl
    · intro b
      rw [hcells b]
      show TierCell.of cfg (TierPolicy.map cfg q s.pol).2 b = _
      rw [hmap]
      rfl
    · refine forall_mem_cons.mpr ⟨?_, hchains⟩
      rw [hothers q.block hn.1]
      simp only [TierRequest.mapBlock, update_self, hops]
    · intro b hb
      rw [map_cons, mem_cons, not_or] at hb
      rw [hothers b hb.2]
      exact update_of_ne hb.1 _ _

theorem request_spec (scratch : Nat → Bytes) (hvalid : ValidRequest cfg r) (hw : Wired s.pol) :
    ∃ pol chains, s.request r scratch
        = { s with
            pol := pol
            current := some r
            blocks := (TierRequest.blockRequests cfg r).map BlockRequest.block
            chains := chains
            prepared := []
            sharedCount := armedCount cfg.blockSize r
            callbacks := 0
            submitted := false }
      ∧ Wired pol ∧ (∀ b, TierCell.of cfg pol b = TierCell.of cfg s.pol b)
      ∧ (∀ q ∈ TierRequest.blockRequests cfg r, chains q.block
          = some ⟨q, tierChain cfg q, ⟨q.data, scratch q.block⟩, false⟩)
      ∧ ∀ b ∉ (TierRequest.blockRequests cfg r).map BlockRequest.block, chains b = none :=
  mapBlocks_spec scratch (TierRequest.blockRequests cfg r)
    { s with
      current := some r
      blocks := (TierRequest.blockRequests cfg r).map BlockRequest.block
      chains := fun _ => none
      prepared := []
      sharedCount := armedCount cfg.blockSize r
      callbacks := 0
      submitted := false } hw (hvalid.cut.nodup cfg.blockSize_pos)

/-- **A request comes to an idle tier.** -/
theorem requestInv_request {scratch : Nat → Bytes} (hvalid : ValidRequest cfg r)
    (hw : Wired s.pol) (hcarries : ∀ b < cfg.blocksCount,
      (TierCell.of cfg s.pol b).cache = block cfg.blockSize b V) :
    RequestInv V r (TierCell.of cfg s.pol) (s.request r scratch) := by
  obtain ⟨pol, chains, heq, hwired, hcells, hchains, hothers⟩ := request_spec scratch hvalid hw
  rw [heq]
  have hlen : (TierRequest.blockRequests cfg r).length
      = sharedCount cfg.blockSize r.offset r.length := hvalid.cut.length cfg.blockSize_pos
  have hpos := hvalid.blocks_pos
  constructor
  · exact hvalid
  · exact hwired
  · exact hcarries
  · exact fun b => TierCell.clipped_of cfg s.pol b
  · rfl
  · intro q hq
    refine ⟨_, hchains q hq, rfl, ?_, ?_, ?_, ?_⟩
    · exact fun hh => absurd hh (by simp [Handed])
    · exact fun _ => ⟨[], rfl, scratch q.block, by rw [hcells]; rfl⟩
    · exact fun _ => ⟨rfl, rfl⟩
    · exact fun hh => absurd hh (by simp [Handed])
  · exact fun b hb => ⟨hothers b hb, hcells b⟩
  · exact nodup_nil
  · exact fun b hb => absurd hb (by simp [Handed])
  · -- the count passes through a `uint8_t`
    have hblocks := hvalid.blocks
    simp only [length_map, length_nil, armedCount]
    rw [← hlen, Nat.mod_eq_of_lt (by omega)]
    simp
  · simp only [length_map, length_nil]
    rw [if_neg (by omega)]
  · exact nofun

/-! ## Steps of a request -/

section Steps

variable {b : Nat} {c : BlockChain cfg.blocksCount cfg.blockSize}
  {op : BlockOp cfg.blocksCount} {ops : List (BlockOp cfg.blocksCount)}

theorem ChainInv.level_of_not_waiting {q : BlockRequest cfg.blockSize} {v : TierCell}
    (h : ChainInv s q v c) (hw : c.waiting = false) : Handed s q.block → s.submitted = true := by
  intro hh
  cases hs : s.submitted with
  | true => rfl
  | false =>
    have := (h.ahead hh hs).1
    rw [hw] at this
    cases this

theorem ChainInv.mem {q : BlockRequest cfg.blockSize} {v : TierCell} (h : ChainInv s q v c)
    (ho : c.ops = op :: ops) : op ∈ tierChain cfg q := by
  by_cases hl : Handed s q.block → s.submitted = true
  · obtain ⟨sent, hchain, _⟩ := h.level hl
    rw [hchain, ho]
    simp
  · rw [Classical.not_imp] at hl
    obtain ⟨_, sent, d, hchain, _⟩ := h.ahead hl.1 (by simpa using hl.2)
    rw [hchain, ho]
    simp

theorem RequestInv.chainInv (h : RequestInv V r w s) (hc : s.chains b = some c) :
    ∀ q ∈ TierRequest.blockRequests cfg r, q.block = b → ChainInv s q (w b) c := by
  rintro q hq rfl
  obtain ⟨c', hc', hinv⟩ := h.chains q hq
  obtain rfl : c' = c := Option.some.inj (hc'.symm.trans hc)
  exact hinv

theorem RequestInv.stepChain {s' : TierRequest cfg}
    {c' : BlockChain cfg.blocksCount cfg.blockSize} (h : RequestInv V r w s) (hb : b ∈ s.blocks)
    (heq : s' = { s with pol := s'.pol, chains := update s.chains b (some c') })
    (hwired : Wired s'.pol)
    (hcell : ∀ b', b' ≠ b → TierCell.of cfg s'.pol b' = TierCell.of cfg s.pol b')
    (hinv : ∀ q ∈ TierRequest.blockRequests cfg r, q.block = b → ChainInv s' q (w b) c') :
    RequestInv V r w s' := by
  have hprep : s'.prepared = s.prepared := by rw [heq]
  have hsub : s'.submitted = s.submitted := by rw [heq]
  have hblocks : s'.blocks = s.blocks := by rw [heq]
  have hchains : s'.chains = update s.chains b (some c') := by rw [heq]
  constructor
  · exact h.valid
  · exact hwired
  · exact h.carries
  · exact h.clipped
  · exact hblocks.trans h.blocks
  · intro q hq
    rw [hchains]
    by_cases hqb : q.block = b
    · subst hqb
      exact ⟨c', update_self .., hinv q hq rfl⟩
    · obtain ⟨c, hc, hci⟩ := h.chains q hq
      exact ⟨c, (update_of_ne hqb _ _).trans hc, hci.frame hprep hsub (hcell _ hqb)⟩
  · intro b' hb'
    rw [hblocks] at hb'
    have hne : b' ≠ b := fun he => hb' (he ▸ hb)
    rw [hchains, hcell b' hne]
    exact ⟨(update_of_ne hne _ _).trans (h.others b' hb').1, (h.others b' hb').2⟩
  · rw [hprep]
    exact h.nodup
  · intro b' hb'
    unfold Handed at hb'
    rw [hprep] at hb'
    rw [hblocks]
    exact h.handed b' hb'
  · rw [hprep, hblocks, ← h.count, heq]
  · rw [hprep, hblocks, hsub, ← h.callbacks, heq]
  · rw [hprep, hblocks, hsub]
    exact h.submitted

theorem RequestInv.send (h : RequestInv V r w s) (hc : s.chains b = some c)
    (ho : c.ops = op :: ops) (hw : c.waiting = false) (hop : op.handsOver = false) :
    RequestInv V r w (s.send b c op ops) := by
  obtain ⟨hb, q₀, hq₀, hqb₀, hinv₀⟩ := h.chain_of_some hc
  have hmem : op ∈ tierChain cfg c.req := by
    rw [hinv₀.req]
    exact hinv₀.mem ho
  have hreq : c.req.block = b := by rw [hinv₀.req, hqb₀]
  refine h.stepChain hb rfl ?_ ?_ ?_
  · exact (tierLocal cfg).send_ok h.wired hmem
  · intro b' hne
    exact (tierLocal cfg).send_other h.wired hmem (hreq ▸ hne)
  · intro q hq hqb
    have hinv := h.chainInv hc q hq hqb
    have hself : _ = TierCell.send cfg c.req op (c.bufs, TierCell.of cfg s.pol c.req.block) :=
      (tierLocal cfg).send_self (m := c.bufs) h.wired hmem
    have hlevel := hinv.level_of_not_waiting hw
    obtain ⟨sent, hchain, scratch, hpast⟩ := hinv.level hlevel
    constructor
    · exact hinv.req
    · intro hh hs
      exact absurd (hlevel hh) (by rw [show s.submitted = false from hs]; simp)
    · intro _
      refine ⟨sent ++ [op], ?_, scratch, ?_⟩
      · rw [append_assoc, singleton_append, ← ho]
        exact hchain
      · rw [LocalPolicy.run_snoc, ← hpast, ← hinv.req]
        exact hself
    · intro hh
      obtain ⟨_, hcount⟩ := hinv.before hh
      rw [ho, countP_cons, hop] at hcount
      exact ⟨hw, hcount⟩
    · intro hh
      have hcount := hinv.after hh
      rw [ho, countP_cons, hop] at hcount
      exact hcount

theorem RequestInv.pass (h : RequestInv V r w s) (hc : s.chains b = some c)
    (hs : s.submitted = true) :
    RequestInv V r w (s.setChain b { c with waiting := false }) := by
  obtain ⟨hb, _⟩ := h.chain_of_some hc
  refine h.stepChain hb rfl h.wired (fun _ _ => rfl) ?_
  intro q hq hqb
  have hinv := h.chainInv hc q hq hqb
  constructor
  · exact hinv.req
  · intro _ hns
    rw [show s.submitted = false from hns] at hs
    cases hs
  · exact fun _ => hinv.level fun _ => hs
  · exact fun hh => ⟨rfl, (hinv.before hh).2⟩
  · exact hinv.after

theorem handed_prepare {id b' : Nat} {d : Buf} :
    Handed (s.prepare b c id d ops) b' ↔ Handed s b' ∨ b' = id := by
  simp [Handed, TierRequest.prepare, TierRequest.setChain]

theorem ChainInv.prepare_self {q : BlockRequest cfg.blockSize} {v : TierCell} {d : Buf}
    (h : ChainInv s q v c) (ho : c.ops = .executeDataStoreRequest q.block d :: ops)
    (hw : c.waiting = false) (hnot : ¬ Handed s q.block) (hsub : s.submitted = false) :
    ChainInv (s.prepare q.block c q.block d ops) q v
      { c with ops := ops, waiting := true } := by
  have hhanded : Handed (s.prepare q.block c q.block d ops) q.block :=
    handed_prepare.mpr (Or.inr rfl)
  obtain ⟨sent, hchain, hpast⟩ := h.level (h.level_of_not_waiting hw)
  rw [ho] at hchain
  constructor
  · exact h.req
  · intro _ _
    exact ⟨rfl, sent, d, hchain, hpast, mem_append_right _ (mem_singleton_self _)⟩
  · intro hl
    have hs : s.submitted = true := hl hhanded
    rw [hs] at hsub
    cases hsub
  · exact fun hh => absurd hhanded hh
  · intro _
    have hle := countP_handsOver_le q
    rw [← (h.before hnot).2, ho, countP_cons_of_pos rfl] at hle
    exact Nat.le_zero.mp (Nat.le_of_succ_le_succ hle)

theorem ChainInv.prepare_other {q : BlockRequest cfg.blockSize} {v : TierCell} {id : Nat} {d : Buf}
    {c' : BlockChain cfg.blocksCount cfg.blockSize} (h : ChainInv s q v c')
    (hne : q.block ≠ id) : ChainInv (s.prepare b c id d ops) q v c' := by
  have hiff : Handed (s.prepare b c id d ops) q.block ↔ Handed s q.block :=
    handed_prepare.trans (or_iff_left hne)
  constructor
  · exact h.req
  · intro hh hs
    obtain ⟨hwait, sent, d', hchain, hpast, hmem⟩ := h.ahead (hiff.mp hh) hs
    exact ⟨hwait, sent, d', hchain, hpast, mem_append_left _ hmem⟩
  · exact fun hl => h.level fun hh => hl (hiff.mpr hh)
  · exact fun hh => h.before (mt hiff.mpr hh)
  · exact fun hh => h.after (hiff.mp hh)

theorem RequestInv.prepare {id : Nat} {d : Buf} (h : RequestInv V r w s)
    (hc : s.chains b = some c) (ho : c.ops = .executeDataStoreRequest id d :: ops)
    (hw : c.waiting = false) : RequestInv V r w (s.prepare b c id d ops) := by
  obtain ⟨hb, q₀, hq₀, hqb₀, hinv₀⟩ := h.chain_of_some hc
  have hid : id = b := by
    have hon : OnBlock q₀.block (BlockOp.executeDataStoreRequest id d) :=
      onBlock_tierChain _ (hinv₀.mem ho)
    exact Eq.trans hon hqb₀
  subst hid
  -- the chain has its one `ExecuteDataStoreRequest` still before it
  have hnot : ¬ Handed s id := by
    intro hh
    have hcount := hinv₀.after (hqb₀.symm ▸ hh)
    rw [ho, countP_cons] at hcount
    simp [BlockOp.handsOver] at hcount
  have hlt := h.prepared_lt hb hnot
  have hsub : s.submitted = false := by
    cases hs : s.submitted with
    | false => rfl
    | true => exact absurd (h.submitted hs) (Nat.ne_of_lt hlt)
  have hcount := h.count
  have hcomplete : AioCompletion.complete s.sharedCount
      = (s.sharedCount - 1, decide (s.sharedCount = 1)) :=
    AioCompletion.complete_of_pos (by omega)
  constructor
  · exact h.valid
  · exact h.wired
  · exact h.carries
  · exact h.clipped
  · exact h.blocks
  · intro q hq
    by_cases hqb : q.block = id
    · subst hqb
      have hinv := h.chainInv hc q hq rfl
      exact ⟨_, update_self .., hinv.prepare_self ho hw hnot hsub⟩
    · obtain ⟨c', hc', hinv⟩ := h.chains q hq
      exact ⟨c', (update_of_ne hqb _ _).trans hc', hinv.prepare_other hqb⟩
  · intro b' hb'
    have hne : b' ≠ id := fun he => hb' (he ▸ hb)
    exact ⟨(update_of_ne hne _ _).trans (h.others b' hb').1, (h.others b' hb').2⟩
  · simp only [TierRequest.prepare, TierRequest.setChain, map_append, map_singleton]
    exact nodup_append.mpr ⟨h.nodup, nodup_singleton _, by
      intro x hx y hy hxy
      rw [mem_singleton.mp hy] at hxy
      exact hnot (hxy ▸ hx)⟩
  · intro b' hb'
    rcases handed_prepare.mp hb' with hb' | rfl
    · exact h.handed b' hb'
    · exact hb
  · simp only [TierRequest.prepare, TierRequest.setChain, hcomplete, length_append,
      length_singleton]
    omega
  · -- the callback is run by the one that completes the batch
    have hcb := h.callbacks
    rw [if_neg (fun hcase => absurd hcase.1 (Nat.ne_of_lt hlt))] at hcb
    simp only [TierRequest.prepare, TierRequest.setChain, hcomplete, length_append,
      length_singleton, hcb, hsub, and_true, Nat.zero_add]
    by_cases hlast : s.prepared.length + 1 = s.blocks.length
    · rw [if_pos hlast, decide_eq_true (by omega)]
      rfl
    · rw [if_neg hlast, decide_eq_false (by omega)]
      rfl
  · intro hs
    rw [show s.submitted = true from hs] at hsub
    cases hsub

theorem RequestInv.submit_cell (h : RequestInv V r w s) {data : Bytes}
    (hmem : (b, data) ∈ s.prepared) :
    TierCell.of cfg s.submit.pol b = { TierCell.of cfg s.pol b with
      cache := memcpy (block cfg.blockSize b s.pol.cacheData) 0 data 0 cfg.blockSize } := by
  have hself : block cfg.blockSize b
        (s.prepared.foldl (TierRequest.writeBlock cfg.blockSize) s.pol.cacheData)
      = memcpy (block cfg.blockSize b s.pol.cacheData) 0 data 0 cfg.blockSize :=
    block_foldl_self (f := TierRequest.writeBlock cfg.blockSize)
      (g := fun p x => memcpy x 0 p.2 0 cfg.blockSize) (fun _ _ => block_memcpy_whole)
      (fun _ _ _ hne => block_memcpy_whole_other hne) s.prepared s.pol.cacheData h.nodup _ hmem
  simp only [TierCell.of, TierRequest.submit]
  rw [hself]

theorem RequestInv.submit_other (hb : ¬ Handed s b) :
    TierCell.of cfg s.submit.pol b = TierCell.of cfg s.pol b := by
  have hother : block cfg.blockSize b
        (s.prepared.foldl (TierRequest.writeBlock cfg.blockSize) s.pol.cacheData)
      = block cfg.blockSize b s.pol.cacheData :=
    block_foldl_other (f := TierRequest.writeBlock cfg.blockSize)
      (fun _ _ hne => block_memcpy_whole_other hne) s.prepared s.pol.cacheData hb
  simp only [TierCell.of, TierRequest.submit]
  rw [hother]

theorem RequestInv.submit (h : RequestInv V r w s) (hcb : 0 < s.callbacks) :
    RequestInv V r w s.submit := by
  have hcount := h.callbacks
  -- there is a callback to run only once all blocks are there
  have hready : s.prepared.length = s.blocks.length ∧ s.submitted = false := by
    by_contra hc
    rw [if_neg hc] at hcount
    omega
  rw [if_pos hready] at hcount
  have hall := h.all_handed hready.1
  constructor
  · exact h.valid
  · exact h.wired
  · exact h.carries
  · exact h.clipped
  · exact h.blocks
  · intro q hq
    have hb : q.block ∈ s.blocks := h.blocks ▸ mem_map_of_mem hq
    obtain ⟨c, hc, hinv⟩ := h.chains q hq
    obtain ⟨hwait, sent, d, hchain, ⟨scratch, hpast⟩, hmem⟩ := hinv.ahead (hall _ hb) hready.2
    refine ⟨c, hc, hinv.req, ?_, ?_, ?_, hinv.after⟩
    · exact fun _ hns => absurd hns (by simp [TierRequest.submit])
    · -- the batch has done to the cell what the operation would have done
      refine fun _ => ⟨sent ++ [.executeDataStoreRequest q.block d], ?_, scratch, ?_⟩
      · rw [append_assoc]
        exact hchain
      · rw [LocalPolicy.run_snoc, ← hpast, h.submit_cell hmem]
        rfl
    · exact fun hh => absurd (hall _ hb) hh
  · intro b' hb'
    rw [RequestInv.submit_other (fun hh => hb' (h.handed b' hh))]
    exact h.others b' hb'
  · exact h.nodup
  · exact h.handed
  · exact h.count
  · rw [if_neg (by simp [TierRequest.submit])]
    show s.callbacks - 1 = 0
    omega
  · exact fun _ => hready.1

end Steps

/-! ## The end of a request -/

theorem RequestInv.through {q : BlockRequest cfg.blockSize} (h : RequestInv V r w s)
    (hq : q ∈ TierRequest.blockRequests cfg r) (hthrough : s.isThrough q.block = true) :
    ∃ c scratch, s.chains q.block = some c ∧ c.req = q
      ∧ (c.bufs, TierCell.of cfg s.pol q.block)
          = (tierLocal cfg).execute q scratch (w q.block) := by
  obtain ⟨c, hc, hinv⟩ := h.chains q hq
  unfold TierRequest.isThrough at hthrough
  rw [hc, Option.any_some, Bool.and_eq_true, List.isEmpty_iff, Bool.not_eq_true'] at hthrough
  obtain ⟨sent, hchain, scratch, hpast⟩ := hinv.level (hinv.level_of_not_waiting hthrough.2)
  rw [hthrough.1, append_nil] at hchain
  refine ⟨c, scratch, hc, hinv.req, ?_⟩
  rw [hpast, ← hchain, hinv.req]
  rfl

theorem RequestInv.callbacks_zero (h : RequestInv V r w s)
    (hall : s.blocks.all s.isThrough = true) : s.callbacks = 0 := by
  rw [h.callbacks, if_neg]
  rintro ⟨hlen, hsub⟩
  -- a chain that handed its block over would still be waiting for the batch
  obtain ⟨q, hq⟩ := exists_mem_of_length_pos h.valid.blocks_pos
  have hmem : q.block ∈ s.blocks := h.blocks ▸ mem_map_of_mem hq
  obtain ⟨c, hc, hinv⟩ := h.chains q hq
  have hwait := (hinv.ahead (h.all_handed hlen _ hmem) hsub).1
  have hthrough := all_eq_true.mp hall _ hmem
  unfold TierRequest.isThrough at hthrough
  rw [hc, Option.any_some, hwait] at hthrough
  simp at hthrough

/-- **Every cell is what the request makes of it.** -/
theorem RequestInv.finished_cell {q : BlockRequest cfg.blockSize} (h : RequestInv V r w s)
    (hall : s.blocks.all s.isThrough = true) (hq : q ∈ TierRequest.blockRequests cfg r) :
    TierCell.of cfg s.pol q.block = TierCell.apply cfg q (w q.block) := by
  have hmem : q.block ∈ s.blocks := h.blocks ▸ mem_map_of_mem hq
  obtain ⟨c, scratch, _, _, hexec⟩ := h.through hq (all_eq_true.mp hall _ hmem)
  exact (congrArg Prod.snd hexec).trans ((h.clipped _).execute (h.block_lt hq) scratch)

theorem RequestInv.finished (h : RequestInv V r w s) (hall : s.blocks.all s.isThrough = true) :
    ∀ b < cfg.blocksCount,
      (TierCell.of cfg s.pol b).cache = block cfg.blockSize b (applyRequest r V) := by
  intro b hb
  by_cases hmem : b ∈ s.blocks
  · obtain ⟨q, hq, rfl, _⟩ := h.chain_of_mem hmem
    obtain ⟨p, o, len, hpiece⟩ := h.valid.cut.piece q hq
    rw [h.finished_cell hall hq, h.valid.cut.block_self cfg.blockSize_pos V hq]
    exact TierCell.cache_apply (h.carries _ hb) (hpiece.ioType ▸ h.valid.plain)
  · rw [(h.others b hmem).2, h.valid.cut.block_other cfg.blockSize_pos V (h.blocks ▸ hmem)]
    exact h.carries b hb

/-- The request writes to block `b`. -/
def Writes (cfg : TierConfig) (b : Nat) (r : Request) : Prop :=
  r.ioType = .write ∧ b ∈ (TierRequest.blockRequests cfg r).map BlockRequest.block

instance (cfg : TierConfig) (b : Nat) (r : Request) : Decidable (Writes cfg b r) :=
  inferInstanceAs (Decidable (_ ∧ _))

theorem RequestInv.finished_back {b : Nat} (h : RequestInv V r w s)
    (hall : s.blocks.all s.isThrough = true) (hb : b < cfg.blocksCount)
    (hback : ¬ Writes cfg b r → (w b).status ≠ promotedUnflushed →
      (w b).back = block cfg.blockSize b V)
    (hst : (TierCell.of cfg s.pol b).status ≠ promotedUnflushed) :
    (TierCell.of cfg s.pol b).back = block cfg.blockSize b (applyRequest r V) := by
  by_cases hmem : b ∈ s.blocks
  · obtain ⟨q, hq, rfl, _⟩ := h.chain_of_mem hmem
    obtain ⟨p, o, len, hpiece⟩ := h.valid.cut.piece q hq
    rw [h.finished_cell hall hq] at hst ⊢
    rw [h.valid.cut.block_self cfg.blockSize_pos V hq]
    refine TierCell.back_apply (h.carries _ hb) (hpiece.ioType ▸ h.valid.plain)
      (fun hne => hback fun hwrites => hne (hpiece.ioType.trans hwrites.1)) hst
  · rw [(h.others b hmem).2] at hst ⊢
    rw [h.valid.cut.block_other cfg.blockSize_pos V (h.blocks ▸ hmem)]
    exact hback (fun hwrites => hmem (h.blocks ▸ hwrites.2)) hst

def leavesFlushed (cfg : TierConfig) (b : Nat) (x : Bool) (r : Request) : Bool :=
  if b ∈ (TierRequest.blockRequests cfg r).map BlockRequest.block then
    match r.ioType with
    | .flush => true
    | .write => false
    | _ => x
  else x

/-- Block `b` was flushed, and not written since. -/
def flushedAfter (cfg : TierConfig) (b : Nat) (rs : List Request) : Bool :=
  rs.foldl (leavesFlushed cfg b) false

theorem RequestInv.finished_clean {b : Nat} {x : Bool} (h : RequestInv V r w s)
    (hall : s.blocks.all s.isThrough = true)
    (hx : x = true → (w b).status ≠ promotedUnflushed)
    (hclean : leavesFlushed cfg b x r = true) :
    (TierCell.of cfg s.pol b).status ≠ promotedUnflushed := by
  unfold leavesFlushed at hclean
  rw [← h.blocks] at hclean
  by_cases hmem : b ∈ s.blocks
  · rw [if_pos hmem] at hclean
    obtain ⟨q, hq, rfl, _⟩ := h.chain_of_mem hmem
    obtain ⟨p, o, len, hpiece⟩ := h.valid.cut.piece q hq
    rw [h.finished_cell hall hq, TierCell.apply, hpiece.ioType]
    rcases h.valid.plain with hio | hio | hio <;> rw [hio] at hclean ⊢
    · exact hx hclean
    · cases hclean
    · exact (by decide : flushed ≠ promotedUnflushed)
  · rw [if_neg hmem] at hclean
    rw [(h.others b hmem).2]
    exact hx hclean

/-- `buf` holds the range of the volume a READ asks for. -/
def Returns (r : Request) (V buf : Bytes) : Prop :=
  r.ioType = .read → ∀ i < r.length, buf i = V (r.offset + i)

theorem Cut.gather {id dataPtr offset left : Nat} {qs : List (BlockRequest cfg.blockSize)}
    {chains : Nat → Option (BlockChain cfg.blocksCount cfg.blockSize)}
    (hcut : Cut r id dataPtr offset left qs) (hchains : ∀ q ∈ qs, ∃ c,
      chains q.block = some c ∧ c.req = q
        ∧ ∀ i < q.size, c.bufs.dataPtr i = V (q.block * cfg.blockSize + q.offset + i)) :
    ∀ i < left, TierRequest.gather chains (qs.map BlockRequest.block) i = V (offset + i) := by
  induction hcut with
  | @last dataPtr offset left q hpos hle hq =>
    obtain ⟨c, hc, hreq, hbuf⟩ := hchains q (by simp)
    intro i hi
    rw [map_singleton, TierRequest.gather, hc]
    dsimp only
    rw [hreq, if_pos (by rw [hq.size]; exact hi), hbuf i (by rw [hq.size]; exact hi), hq.addr]
  | @more dataPtr offset left q qs hlt hq _ ih =>
    obtain ⟨hhead, htail⟩ := forall_mem_cons.mp hchains
    obtain ⟨c, hc, hreq, hbuf⟩ := hhead
    intro i hi
    rw [map_cons, TierRequest.gather, hc]
    dsimp only
    rw [hreq]
    -- in the first piece, or in what comes after it
    by_cases hin : i < q.size
    · rw [if_pos hin, hbuf i hin, hq.addr]
    · rw [if_neg hin, ih htail _ (by rw [hq.size] at hin ⊢; omega), ← next_offset cfg.blockSize_pos]
      rw [hq.size] at hin ⊢
      congr 1
      omega

/-- **A READ returns the bytes of the volume.** -/
theorem RequestInv.returns (h : RequestInv V r w s) (hall : s.blocks.all s.isThrough = true) :
    Returns r V (TierRequest.gather s.chains s.blocks) := by
  intro hio
  rw [h.blocks]
  refine h.valid.cut.gather fun q hq => ?_
  have hmem : q.block ∈ s.blocks := h.blocks ▸ mem_map_of_mem hq
  have hb := h.block_lt hq
  obtain ⟨c, scratch, hc, hreq, hexec⟩ := h.through hq (all_eq_true.mp hall _ hmem)
  obtain ⟨p, o, len, hpiece⟩ := h.valid.cut.piece q hq
  refine ⟨c, hc, hreq, ?_⟩
  intro i hi
  have hin := q.inBlock
  have hbufs : c.bufs = ((tierLocal cfg).execute q scratch (w q.block)).1 := congrArg Prod.fst hexec
  rw [hbufs, TierCell.execute_answers hb scratch (hpiece.ioType.trans hio) i hi,
    h.carries _ hb, block_of_lt (by omega), Nat.add_assoc]

end Request

/-! ## Runs -/

section Run

variable {cfg : TierConfig} {V₀ : Bytes} {s s' : TierRequest cfg}

/-- The requests the volume is used with. -/
def VolumeRun (cfg : TierConfig) (_ : TierRequest cfg) : TierRequest.Act → Prop
  | .request r _ => ValidRequest cfg r
  | _ => True

instance (s : TierRequest cfg) (a : TierRequest.Act) : Decidable (VolumeRun cfg s a) :=
  match a with
  | .request r _ => inferInstanceAs (Decidable (ValidRequest cfg r))
  | .send _ | .prepare _ | .submit | .pass _ | .finish => .isTrue trivial

/-- What the requests made of the volume so far. -/
def volumeOf (V₀ : Bytes) (s : TierRequest cfg) : Bytes := volume V₀ (s.done.map Prod.fst)

structure CleanCells (sound : Nat → Prop) (V₀ : Bytes) (s : TierRequest cfg) (w : Nat → TierCell) :
    Prop where
  status : ∀ b, flushedAfter cfg b (s.done.map Prod.fst) = true → (w b).status ≠ promotedUnflushed
  back : ∀ b < cfg.blocksCount, (sound b ∨ ∃ x ∈ s.done, Writes cfg b x.1) →
    (w b).status ≠ promotedUnflushed → (w b).back = block cfg.blockSize b (volumeOf V₀ s)

structure IdleInv (sound : Nat → Prop) (V₀ : Bytes) (s : TierRequest cfg) : Prop where
  chains : s.chains = fun _ => none
  callbacks : s.callbacks = 0
  wired : Wired s.pol
  carries : ∀ b < cfg.blocksCount,
    (TierCell.of cfg s.pol b).cache = block cfg.blockSize b (volumeOf V₀ s)
  clean : CleanCells sound V₀ s (TierCell.of cfg s.pol)

structure VolumeInv (sound : Nat → Prop) (V₀ : Bytes) (s : TierRequest cfg) : Prop where
  returns : ∀ done₁ r buf done₂, s.done = done₁ ++ (r, buf) :: done₂ →
    Returns r (volume V₀ (done₁.map Prod.fst)) buf
  idle : s.current = none → IdleInv sound V₀ s
  busy : ∀ r, s.current = some r → ∃ w, RequestInv (volumeOf V₀ s) r w s ∧ CleanCells sound V₀ s w

variable {sound : Nat → Prop}

theorem VolumeInv.of_busy {r : Request} {w : Nat → TierCell} (h : VolumeInv sound V₀ s)
    (hcur : s'.current = some r) (hdone : s'.done = s.done)
    (hinv : RequestInv (volumeOf V₀ s) r w s') (hclean : CleanCells sound V₀ s w) :
    VolumeInv sound V₀ s' := by
  constructor
  · rw [hdone]
    exact h.returns
  · exact fun hnone => absurd (hcur.symm.trans hnone) (by simp)
  · intro r' hr'
    obtain rfl : r = r' := Option.some.inj (hcur.symm.trans hr')
    have hvol : volumeOf V₀ s' = volumeOf V₀ s := by
      unfold volumeOf
      rw [hdone]
    refine ⟨w, hvol ▸ hinv, ?_, ?_⟩
    · rw [hdone]
      exact hclean.status
    · rw [hdone, hvol]
      exact hclean.back

theorem request_fields (r : Request) (scratch : Nat → Bytes) (hw : Wired s.pol)
    (hvalid : ValidRequest cfg r) :
    (s.request r scratch).current = some r ∧ (s.request r scratch).done = s.done := by
  obtain ⟨pol, chains, heq, _⟩ := request_spec scratch hvalid hw
  rw [heq]
  exact ⟨rfl, rfl⟩

theorem VolumeInv.finish {r : Request} (h : VolumeInv sound V₀ s) (hcur : s.current = some r)
    (hall : s.blocks.all s.isThrough = true) : VolumeInv sound V₀ (s.finish r) := by
  obtain ⟨w, hinv, hclean⟩ := h.busy r hcur
  constructor
  · intro done₁ r' buf done₂ heq
    have heq' : s.done ++ [(r, TierRequest.gather s.chains s.blocks)]
        = done₁ ++ (r', buf) :: done₂ := heq
    -- the request that was completed last, or one before it
    rcases eq_nil_or_concat done₂ with rfl | ⟨done₃, x, rfl⟩
    · obtain ⟨rfl, hlast⟩ := append_inj' heq' rfl
      obtain ⟨rfl, rfl⟩ := Prod.mk.inj (singleton_inj.mp hlast)
      exact hinv.returns hall
    · rw [concat_eq_append, ← cons_append, ← append_assoc] at heq'
      exact h.returns _ _ _ _ (append_inj' heq' rfl).1
  · intro _
    have hvol : volumeOf V₀ (s.finish r) = applyRequest r (volumeOf V₀ s) := by
      unfold volumeOf
      rw [← volume_snoc]
      simp only [TierRequest.finish, map_append, map_singleton]
    constructor
    · rfl
    · exact hinv.callbacks_zero hall
    · exact hinv.wired
    · rw [hvol]
      exact hinv.finished hall
    · constructor
      · intro b hb
        have hmap : (s.finish r).done.map Prod.fst = s.done.map Prod.fst ++ [r] := by
          simp only [TierRequest.finish, map_append, map_singleton]
        rw [hmap, flushedAfter, foldl_append] at hb
        exact hinv.finished_clean hall (hclean.status b) hb
      · intro b hb hsound
        rw [hvol]
        refine hinv.finished_back hall hb fun hnot => hclean.back b hb ?_
        -- who wrote to the block was not this request
        refine hsound.imp_right fun ⟨x, hx, hwrites⟩ => ?_
        rcases mem_append.mp hx with hx | hx
        · exact ⟨x, hx, hwrites⟩
        · rw [mem_singleton.mp hx] at hwrites
          exact absurd hwrites hnot
  · exact fun _ hr => absurd hr (by simp [TierRequest.finish])

/-- **What a step keeps.** -/
theorem volumeInv_step {a : TierRequest.Act} (h : VolumeInv sound V₀ s) (hok : VolumeRun cfg s a)
    (hs : s.step a = some s') : VolumeInv sound V₀ s' := by
  have hbusy : s.current ≠ none → ∃ r w, s.current = some r
      ∧ RequestInv (volumeOf V₀ s) r w s ∧ CleanCells sound V₀ s w := by
    intro hne
    obtain ⟨r, hcur⟩ := Option.ne_none_iff_exists'.mp hne
    obtain ⟨w, hinv, hclean⟩ := h.busy r hcur
    exact ⟨r, w, hcur, hinv, hclean⟩
  -- chains and callbacks only exist while a request is being executed
  have hchain : ∀ {b c}, s.chains b = some c → s.current ≠ none := by
    intro b c hc hcur
    rw [(h.idle hcur).chains] at hc
    cases hc
  obtain ⟨r, scratch, rfl, hcur, rfl⟩ | ⟨b, c, op, ops, rfl, hc, ho, hw, hop, rfl⟩
    | ⟨b, c, id, d, ops, rfl, hc, ho, hw, rfl⟩ | ⟨rfl, hcb, rfl⟩ | ⟨b, c, rfl, hc, hw, hsub, rfl⟩
    | ⟨r, rfl, hcur, hall, rfl⟩ := TierRequest.step_cases hs
  · have hidle := h.idle hcur
    obtain ⟨hcur', hdone⟩ := request_fields (s := s) r scratch hidle.wired hok
    exact h.of_busy hcur' hdone (requestInv_request hok hidle.wired hidle.carries) hidle.clean
  · obtain ⟨r, w, hcur, hinv, hclean⟩ := hbusy (hchain hc)
    exact h.of_busy hcur rfl (hinv.send hc ho hw hop) hclean
  · obtain ⟨r, w, hcur, hinv, hclean⟩ := hbusy (hchain hc)
    exact h.of_busy hcur rfl (hinv.prepare hc ho hw) hclean
  · obtain ⟨r, w, hcur, hinv, hclean⟩ :=
      hbusy fun hcur => Nat.ne_of_gt hcb (h.idle hcur).callbacks
    exact h.of_busy hcur rfl (hinv.submit hcb) hclean
  · obtain ⟨r, w, hcur, hinv, hclean⟩ := hbusy (hchain hc)
    exact h.of_busy hcur rfl (hinv.pass hc hsub) hclean
  · exact h.finish hcur hall

/-- Of a block that is not dirty the backend has the volume too. -/
def BackSound (cfg : TierConfig) (pol : TierState cfg.blocksCount) (V₀ : Bytes) (b : Nat) : Prop :=
  (TierCell.of cfg pol b).status ≠ promotedUnflushed →
    block cfg.blockSize b pol.backData = block cfg.blockSize b V₀

/-- **What holds along every run.** -/
theorem volumeInv_reachable {pol : TierState cfg.blocksCount} (hw : Wired pol)
    (hcarries : ∀ b < cfg.blocksCount,
      block cfg.blockSize b pol.cacheData = block cfg.blockSize b V₀)
    (h : Reachable TierRequest.step (VolumeRun cfg) (TierRequest.start pol) s) :
    VolumeInv (BackSound cfg pol V₀) V₀ s := by
  refine Reachable.invariant ?_ (fun _ _ _ hinv hok hs => volumeInv_step hinv hok hs) h
  constructor
  · exact fun _ _ _ _ heq => absurd heq (by simp [TierRequest.start])
  · refine fun _ => ⟨rfl, rfl, hw, hcarries, fun b hb => absurd hb Bool.false_ne_true,
      fun b _ hsound => ?_⟩
    exact hsound.resolve_right fun ⟨x, hx, _⟩ => absurd hx (by simp [TierRequest.start])
  · exact fun _ hr => absurd hr (by simp [TierRequest.start])

/-! ## Every request comes to its end -/

theorem RequestInv.write_of_handed {V : Bytes} {r : Request} {w : Nat → TierCell}
    {q : BlockRequest cfg.blockSize} (h : RequestInv V r w s)
    (hq : q ∈ TierRequest.blockRequests cfg r) (hh : Handed s q.block)
    (hsub : s.submitted = false) : r.ioType = .write := by
  obtain ⟨c, hc, hinv⟩ := h.chains q hq
  obtain ⟨_, sent, d, hchain, _⟩ := hinv.ahead hh hsub
  obtain ⟨p, o, len, hpiece⟩ := h.valid.cut.piece q hq
  have hcount := countP_handsOver (h.block_lt hq)
  by_contra hio
  rw [if_neg (fun hc => hio (hpiece.ioType.symm.trans hc)), hchain, countP_append,
    countP_cons_of_pos rfl] at hcount
  omega

theorem RequestInv.canGoOn_of_missing {V : Bytes} {r : Request} {w : Nat → TierCell}
    (h : RequestInv V r w s) (hio : r.ioType = .write)
    (hlen : s.prepared.length ≠ s.blocks.length) : s.CanGoOn := by
  have hmissing : ∃ b ∈ s.blocks, ¬ Handed s b := by
    by_contra hc
    push Not at hc
    have hle := (subperm_of_subset h.nodup_blocks hc).length_le
    rw [length_map] at hle
    exact hlen (Nat.le_antisymm h.prepared_le hle)
  obtain ⟨b, hb, hnot⟩ := hmissing
  obtain ⟨q, hq, rfl, c, hc, hinv⟩ := h.chain_of_mem hb
  obtain ⟨p, o, len, hpiece⟩ := h.valid.cut.piece q hq
  obtain ⟨hw, hcount⟩ := hinv.before hnot
  rw [countP_handsOver (h.block_lt hq), if_pos (hpiece.ioType.trans hio)] at hcount
  cases ho : c.ops with
  | nil => rw [ho] at hcount; cases hcount
  | cons op ops => exact TierRequest.canGoOn_of_ops hc ho hw

theorem RequestInv.canGoOn {V : Bytes} {r : Request} {w : Nat → TierCell}
    (h : RequestInv V r w s) (hnot : ¬ s.blocks.all s.isThrough = true) : s.CanGoOn := by
  rw [all_eq_true] at hnot
  push Not at hnot
  obtain ⟨b, hb, hthrough⟩ := hnot
  obtain ⟨q, hq, rfl, c, hc, hinv⟩ := h.chain_of_mem hb
  unfold TierRequest.isThrough at hthrough
  rw [hc, Option.any_some] at hthrough
  cases hw : c.waiting with
  -- a chain that does not wait has an operation to send
  | false =>
    cases ho : c.ops with
    | nil => rw [ho, hw] at hthrough; exact absurd rfl hthrough
    | cons op ops => exact TierRequest.canGoOn_of_ops hc ho hw
  -- one that waits has handed its block over, and the batch is through, ready or incomplete
  | true =>
    have hhanded : Handed s q.block := by
      by_contra hh
      rw [(hinv.before hh).1] at hw
      cases hw
    cases hsub : s.submitted with
    | true =>
      have hcount : s.sharedCount = 0 := by
        rw [h.count, h.submitted hsub, Int.sub_self]
      exact TierRequest.canGoOn_of_submitted hc hw hcount hsub
    | false =>
      by_cases hlen : s.prepared.length = s.blocks.length
      · have hcb : s.callbacks = 1 := by rw [h.callbacks, if_pos ⟨hlen, hsub⟩]
        exact TierRequest.canGoOn_of_isSome (a := .submit) (by simp)
          (by simp [TierRequest.step, hcb])
      · exact h.canGoOn_of_missing (h.write_of_handed hq hhanded hsub) hlen

def chainTodo {n bs : Nat} : Option (BlockChain n bs) → Nat
  | some c => 2 * c.ops.length + c.waiting.toNat
  | none => 0

/-- What is left to do for a request. -/
def todo (s : TierRequest cfg) : Nat :=
  if s.current = none then 0
  else 1 + (!s.submitted).toNat + (s.blocks.map fun b => chainTodo (s.chains b)).sum

theorem todo_setChain {b : Nat} {c c' : BlockChain cfg.blocksCount cfg.blockSize} {r : Request}
    (hcur : s.current = some r) (hb : b ∈ s.blocks) (hc : s.chains b = some c)
    (hlt : chainTodo (some c') < chainTodo (some c))
    (hcur' : s'.current = s.current) (hsub : s'.submitted = s.submitted)
    (hblocks : s'.blocks = s.blocks)
    (hchains : s'.chains = update s.chains b (some c')) : todo s' < todo s := by
  unfold todo
  rw [hcur', hsub, hblocks, hchains, hcur, if_neg (by simp), if_neg (by simp)]
  refine Nat.add_lt_add_left ?_ _
  refine sum_lt_sum _ _ ?_ ⟨b, hb, ?_⟩
  · intro b' _
    by_cases hbb : b' = b
    · subst hbb
      rw [update_self, hc]
      exact Nat.le_of_lt hlt
    · rw [update_of_ne hbb]
  · rw [update_self, hc]
    exact hlt

/-- **Every step of a request leaves less to do.** -/
theorem todo_lt {a : TierRequest.Act} (h : VolumeInv sound V₀ s)
    (ha : ∀ r scratch, a ≠ .request r scratch) (hs : s.step a = some s') : todo s' < todo s := by
  have hmem : ∀ {b c}, s.chains b = some c → b ∈ s.blocks ∧ ∃ r, s.current = some r := by
    intro b c hc
    cases hcur : s.current with
    | none => rw [(h.idle hcur).chains] at hc; cases hc
    | some r =>
      obtain ⟨w, hinv, _⟩ := h.busy r hcur
      exact ⟨(hinv.chain_of_some hc).1, r, rfl⟩
  obtain ⟨r, scratch, rfl, hcur, rfl⟩ | ⟨b, c, op, ops, rfl, hc, ho, hw, hop, rfl⟩
    | ⟨b, c, id, d, ops, rfl, hc, ho, hw, rfl⟩ | ⟨rfl, hcb, rfl⟩ | ⟨b, c, rfl, hc, hw, hsub, rfl⟩
    | ⟨r, rfl, hcur, hall, rfl⟩ := TierRequest.step_cases hs
  · exact absurd rfl (ha r scratch)
  · obtain ⟨hb, r, hcur⟩ := hmem hc
    refine todo_setChain hcur hb hc ?_ rfl rfl rfl rfl
    simp only [chainTodo, ho, length_cons]
    omega
  · obtain ⟨hb, r, hcur⟩ := hmem hc
    refine todo_setChain hcur hb hc ?_ rfl rfl rfl rfl
    simp only [chainTodo, ho, hw, length_cons, Bool.toNat_true, Bool.toNat_false]
    omega
  · cases hcur : s.current with
    | none => exact absurd (h.idle hcur).callbacks (Nat.ne_of_gt hcb)
    | some r =>
      obtain ⟨w, hinv, _⟩ := h.busy r hcur
      have hsub : s.submitted = false := by
        by_contra hc
        rw [hinv.callbacks, if_neg (fun hx => hc hx.2)] at hcb
        omega
      simp only [todo, TierRequest.submit, hcur, hsub]
      simp
  · obtain ⟨hb, r, hcur⟩ := hmem hc
    refine todo_setChain hcur hb hc ?_ rfl rfl rfl rfl
    simp only [chainTodo, hw, Bool.toNat_true, Bool.toNat_false]
    omega
  · simp only [todo, TierRequest.finish, hcur, if_pos]
    rw [if_neg (by simp)]
    omega

theorem VolumeInv.canGoOn (h : VolumeInv sound V₀ s) (hcur : s.current ≠ none) : s.CanGoOn := by
  obtain ⟨r, hr⟩ := Option.ne_none_iff_exists'.mp hcur
  obtain ⟨w, hinv, _⟩ := h.busy r hr
  by_cases hall : s.blocks.all s.isThrough = true
  · exact TierRequest.canGoOn_of_isSome (a := .finish) (by simp)
      (by simp only [TierRequest.step, hr, hall, if_true, Option.isSome_some])
  · exact hinv.canGoOn hall

end Run

/--
**A promoted tier is a flat volume.** READs return its bytes, the cache holds it
between requests, the backend holds of it what was flushed and not written since,
and every request comes to its end, in whatever order its chains are executed. A
FLUSH of a block that is not dirty copies nothing: the backend has to have had the
block at the start, or the block has to have been written.
-/
theorem tier_refines_volume {cfg : TierConfig} {pol : TierState cfg.blocksCount} {V₀ : Bytes}
    (hw : Wired pol) (hcarries : ∀ b < cfg.blocksCount,
      block cfg.blockSize b pol.cacheData = block cfg.blockSize b V₀) {s : TierRequest cfg}
    (h : Reachable TierRequest.step (VolumeRun cfg) (TierRequest.start pol) s) :
    (∀ done₁ r buf done₂, s.done = done₁ ++ (r, buf) :: done₂ →
      Returns r (volume V₀ (done₁.map Prod.fst)) buf)
    ∧ (s.current = none → ∀ b < cfg.blocksCount,
        block cfg.blockSize b s.pol.cacheData = block cfg.blockSize b (volumeOf V₀ s))
    ∧ (s.current = none → ∀ b < cfg.blocksCount,
        (BackSound cfg pol V₀ b ∨ ∃ x ∈ s.done, Writes cfg b x.1) →
        flushedAfter cfg b (s.done.map Prod.fst) = true →
        block cfg.blockSize b s.pol.backData = block cfg.blockSize b (volumeOf V₀ s))
    ∧ (s.current ≠ none → s.CanGoOn)
    ∧ ∀ a s', (∀ r scratch, a ≠ .request r scratch) → s.step a = some s' → todo s' < todo s := by
  have hinv := volumeInv_reachable hw hcarries h
  refine ⟨hinv.returns, ?_, ?_, hinv.canGoOn, fun a s' ha hs => todo_lt hinv ha hs⟩
  · exact fun hcur => (hinv.idle hcur).carries
  · intro hcur b hb hsound hclean
    exact (hinv.idle hcur).clean.back b hb hsound ((hinv.idle hcur).clean.status b hclean)

/-- A WRITE across two blocks, a FLUSH of both and a READ. -/
theorem volume_write_flush_read : ∃ s : TierRequest smallTier,
    s.done.map (fun x => x.1.ioType) = [.write, .flush, .read]
      ∧ volumeOf (fun _ => 0) s 1 = 5
      ∧ ∀ b < 2, block 2 b s.pol.backData = block 2 b (volumeOf (fun _ => 0) s) := by
  have hrun : (run TierRequest.step (VolumeRun smallTier)
      (TierRequest.start (TierPolicy.new smallTier (fun _ => 0) (fun _ => flushed) (fun _ => 0)))
      [.request ⟨.write, fun _ => 5, 1, 2⟩ (fun _ _ => 0), .send 0, .send 1, .send 1, .prepare 1,
        .send 0, .prepare 0, .submit, .pass 0, .send 0, .pass 1, .send 1, .send 1, .send 0, .finish,
        .request ⟨.flush, fun _ => 0, 0, 4⟩ (fun _ _ => 0), .send 1, .send 0, .send 0, .send 1,
        .finish,
        .request ⟨.read, fun _ => 0, 0, 3⟩ (fun _ _ => 0), .send 1, .send 1, .send 0, .send 1,
        .finish]).map
      (fun s => decide (s.current = none
        ∧ (∀ b < 2, flushedAfter smallTier b (s.done.map Prod.fst) = true)
        ∧ s.done.map (fun x => x.1.ioType) = [.write, .flush, .read]
        ∧ volumeOf (fun _ => 0) s 1 = 5)) = some true := by decide +kernel
  obtain ⟨s, hs, hcur, hclean, hdone, hvol⟩ := Reachable.of_run_decide hrun
  refine ⟨s, hdone, hvol, fun b hb => ?_⟩
  have hrefines := tier_refines_volume (wired_new _ _ _ _) (fun _ _ => rfl) hs
  exact hrefines.2.2.1 hcur b hb (.inl fun _ => rfl) (hclean b hb)

def flushBoth : List TierRequest.Act :=
  [.request ⟨.flush, fun _ => 0, 0, 4⟩ (fun _ _ => 0), .send 1, .send 0, .send 0, .send 1, .finish]

/--
A new cache of zeros over a backend of sevens, which a FLUSH marks as flushed: the cache carries a
volume of zeros from there on, and a FLUSH leaves the sevens where they are.
-/
theorem flush_of_stale_backend : ∃ s₁ s : TierRequest smallTier,
    Reachable TierRequest.step (VolumeRun smallTier)
      (TierRequest.start (TierPolicy.new smallTier (fun _ => 0) (fun _ => 0) (fun _ => 7))) s₁
    ∧ (∀ b < 2, (TierCell.of smallTier s₁.pol b).status = flushed
      ∧ block 2 b s₁.pol.cacheData = block 2 b (fun _ => 0))
    ∧ Reachable TierRequest.step (VolumeRun smallTier) (TierRequest.start s₁.pol) s
    ∧ s.current = none
    ∧ (∀ b < 2, flushedAfter smallTier b (s.done.map Prod.fst) = true)
    ∧ ∀ b < 2, block 2 b s.pol.backData ≠ block 2 b (volumeOf (fun _ => 0) s) := by
  have hrun : ((run TierRequest.step (VolumeRun smallTier)
      (TierRequest.start (TierPolicy.new smallTier (fun _ => 0) (fun _ => 0) (fun _ => 7)))
      flushBoth).bind fun s₁ => (run TierRequest.step (VolumeRun smallTier)
        (TierRequest.start s₁.pol) flushBoth).map fun s =>
      decide ((∀ b : Nat, b < 2 → (TierCell.of smallTier s₁.pol b).status = flushed
          ∧ ∀ i : Nat, i < 2 → s₁.pol.cacheData (b * 2 + i) = 0)
        ∧ s.current = none
        ∧ (∀ b : Nat, b < 2 → flushedAfter smallTier b (s.done.map Prod.fst) = true)
        ∧ ∀ b : Nat, b < 2 → s.pol.backData (b * 2) = 7 ∧ volumeOf (fun _ => 0) s (b * 2) = 0))
      = some true := by decide +kernel
  obtain ⟨s₁, hs₁, hrun⟩ := Option.bind_eq_some_iff.mp hrun
  obtain ⟨s, hs, hstart, hcur, hclean, hback⟩ := Reachable.of_run_decide hrun
  refine ⟨s₁, s, Reachable.of_run .init hs₁, fun b hb => ⟨(hstart b hb).1, ?_⟩, hs, hcur,
    hclean, fun b hb heq => ?_⟩
  · funext i
    by_cases hi : i < 2
    · rw [block_of_lt hi, block_of_lt hi]
      exact (hstart b hb).2 i hi
    · rw [clipped_block _ _ _ i (by omega), clipped_block _ _ _ i (by omega)]
  · obtain ⟨h7, h0⟩ := hback b hb
    have hbyte := congrFun heq 0
    rw [block_of_lt Nat.zero_lt_two, block_of_lt Nat.zero_lt_two, Nat.add_zero, h7, h0] at hbyte
    cases hbyte

end HDCS.Proof
