import HDCS.Core.Cluster
import HDCS.Lib.Counting
import HDCS.Proof.TierVolume
import HDCS.Proof.Wedged
import Mathlib.Data.List.Perm.Subperm

/-!
# Master and replica

Both sides apply the same WRITEs, and a WRITE is of whole blocks, so what a block holds is what
the last WRITE it has seen carried (`block_volume`). The two sides agree on it if it has seen the
WRITEs in the same order on both (`seenBy`). The order may change in three places:

* on the master, where two batches are submitted at the same time: one sends its message first and
  the other writes first;
* between them: the sessions of a connection do not wait for each other;
* on the replica: the chains of a batch are let past `prepare_request` when its count is zero,
  before it is written, so that the next WRITE of a block may be written first.

Where none of that happens (`NothingOvertakes`) the order of a block is kept from each place to the
next: a batch that is written is the first of each of its blocks' queues
(`ReplicaSound`), and what a block has seen on the master is what it has seen on the replica, with
what waits there and what is on the way (`ClusterSound`).
-/

namespace HDCS.Proof

open Lib Cluster Function Lib.Machine List

variable {cfg : TierConfig} {r : Request} {b k n : Nat} {w w' : Bytes} {rs : List Request}

/-! ## What a block has seen -/

structure WholeWrite (cfg : TierConfig) (r : Request) : Prop where
  ioType : r.ioType = .write
  pos : 0 < r.length
  offset : r.offset % cfg.blockSize = 0
  length : r.length % cfg.blockSize = 0

theorem WholeWrite.cut (h : WholeWrite cfg r) : Cut r 0 0 r.offset r.length
    (createBlockRequests cfg.blockSize cfg.blockSize_pos 0 r) :=
  cut_createBlockRequests cfg.blockSize_pos 0 h.pos

theorem WholeWrite.armed (h : WholeWrite cfg r) (hfew : (blockIds cfg r).length < 256) :
    armedCount cfg.blockSize r = (blockIds cfg r).length := by
  have hlength := h.cut.length cfg.blockSize_pos
  rw [blockIds, length_map] at hfew ⊢
  rw [armedCount, ← hlength, Nat.mod_eq_of_lt hfew]

theorem WholeWrite.range (h : WholeWrite cfg r) (hb : b ∈ blockIds cfg r) :
    r.offset ≤ b * cfg.blockSize ∧ b * cfg.blockSize + cfg.blockSize ≤ r.offset + r.length := by
  have hcount : sharedCount cfg.blockSize r.offset r.length = r.length / cfg.blockSize := by
    rw [sharedCount, h.offset, Nat.add_zero, if_pos h.length, Nat.zero_add]
  rw [blockIds, h.cut.blocks cfg.blockSize_pos, h.cut.length cfg.blockSize_pos, hcount,
    mem_range'_1] at hb
  have hoffset := Nat.div_add_mod r.offset cfg.blockSize
  have hlength := Nat.div_add_mod r.length cfg.blockSize
  rw [h.offset, Nat.add_zero] at hoffset
  rw [h.length, Nat.add_zero] at hlength
  constructor
  · calc r.offset = cfg.blockSize * (r.offset / cfg.blockSize) := hoffset.symm
      _ ≤ cfg.blockSize * b := Nat.mul_le_mul_left _ hb.1
      _ = b * cfg.blockSize := Nat.mul_comm ..
  · calc b * cfg.blockSize + cfg.blockSize = cfg.blockSize * (b + 1) := by
          rw [Nat.mul_add, Nat.mul_one, Nat.mul_comm]
      _ ≤ cfg.blockSize * (r.offset / cfg.blockSize + r.length / cfg.blockSize) :=
          Nat.mul_le_mul_left _ hb.2
      _ = r.offset + r.length := by rw [Nat.mul_add, hoffset, hlength]

theorem WholeWrite.block_self (h : WholeWrite cfg r) (hb : b ∈ blockIds cfg r) (w w' : Bytes) :
    block cfg.blockSize b (applyRequest r w) = block cfg.blockSize b (applyRequest r w') := by
  obtain ⟨hlo, hhi⟩ := h.range hb
  funext i
  by_cases hi : i < cfg.blockSize
  · rw [block_of_lt hi, block_of_lt hi, applyRequest, applyRequest, if_pos h.ioType,
      if_pos h.ioType, memcpy_of_mem (by omega) (by omega), memcpy_of_mem (by omega) (by omega)]
  · rw [clipped_block _ _ _ i (by omega), clipped_block _ _ _ i (by omega)]

def seenBy (cfg : TierConfig) (b : Nat) (rs : List Request) : List Request :=
  rs.filter fun r => b ∈ blockIds cfg r

theorem seenBy_append (rs rs' : List Request) :
    seenBy cfg b (rs ++ rs') = seenBy cfg b rs ++ seenBy cfg b rs' := filter_append ..

theorem seenBy_pos (hb : b ∈ blockIds cfg r) : seenBy cfg b [r] = [r] :=
  filter_cons_of_pos (decide_eq_true hb)

theorem seenBy_neg (hb : b ∉ blockIds cfg r) : seenBy cfg b [r] = [] :=
  filter_cons_of_neg (by simpa using hb)

/-- **A block holds what the last WRITE it has seen carried.** -/
theorem block_volume (hrs : ∀ r ∈ rs, WholeWrite cfg r) (hsome : seenBy cfg b rs ≠ [])
    (w w' : Bytes) : ∃ r ∈ (seenBy cfg b rs).getLast?,
      block cfg.blockSize b (volume w rs) = block cfg.blockSize b (applyRequest r w') := by
  induction rs using List.reverseRecOn with
  | nil => exact absurd rfl hsome
  | append_singleton rs r ih =>
    obtain ⟨hrs, hr⟩ := forall_mem_append.mp hrs
    have hr := hr r (mem_singleton_self _)
    rw [seenBy_append] at hsome ⊢
    rw [volume_snoc]
    by_cases hb : b ∈ blockIds cfg r
    · rw [seenBy_pos hb, getLast?_concat]
      exact ⟨r, rfl, hr.block_self hb _ _⟩
    · rw [seenBy_neg hb, append_nil] at hsome ⊢
      rw [hr.cut.block_other cfg.blockSize_pos _ hb]
      exact ih hrs hsome

/-! ## A replica -/

section Replica

variable {x x' : Replica} {i : Nat} {y : Batch} {rest : List Nat} {store : Bytes}

structure BatchSound (cfg : TierConfig) (queue : Nat → List Nat) (i : Nat) (y : Batch) : Prop where
  whole : WholeWrite cfg y.request
  nodup : y.prepared.Nodup
  blocks : ∀ b ∈ y.prepared, b ∈ blockIds cfg y.request
  count : y.sharedCount = (blockIds cfg y.request).length - y.prepared.length
  first : y.written = false → ∀ b ∈ y.prepared, (queue b).head? = some i
  full : y.written = true → y.sharedCount = 0
  submitting : ∀ b ∈ y.submitting, y.written = false ∧ y.sharedCount = 0 ∧ y.submitting = [b]

theorem BatchSound.all_prepared {queue : Nat → List Nat} (h : BatchSound cfg queue i y)
    (hzero : y.sharedCount = 0) : ∀ b ∈ blockIds cfg y.request, b ∈ y.prepared := by
  have hcount := h.count
  have hperm := (subperm_of_subset h.nodup h.blocks).perm_of_length_le (by omega)
  exact fun b hb => hperm.mem_iff.mpr hb

def unwritten (batches : List Batch) (i : Nat) : Option Request :=
  batches[i]?.bind fun y => if y.written then none else some y.request

structure ReplicaSound (cfg : TierConfig) (store : Bytes) (x : Replica) : Prop where
  batch : ∀ i y, x.batches[i]? = some y → BatchSound cfg x.queue i y
  queued : ∀ b, ∀ i ∈ x.queue b, ∃ y, x.batches[i]? = some y ∧ b ∈ blockIds cfg y.request
  nodup : ∀ b, (x.queue b).Nodup
  /-- A block sees the WRITEs in the order they were taken off the queue. -/
  order : ∀ b, seenBy cfg b (x.batches.map Batch.request)
    = seenBy cfg b x.written ++ (x.queue b).filterMap (unwritten x.batches)
  whole : ∀ r ∈ x.written, WholeWrite cfg r
  store : x.store = volume store x.written

theorem Replica.step_cases {a : Replica.Act} (h : x.step cfg a = some x') :
    (∃ r rs, a = .process ∧ x.requestQueue = r :: rs ∧ x' = x.process cfg r rs)
    ∨ ∃ b i y rest, x.queue b = i :: rest ∧ x.batches[i]? = some y
      ∧ (a = .prepare b ∧ b ∉ y.prepared
          ∧ x' = { x with batches := x.batches.set i (y.prepare b) }
        ∨ a = .submit b ∧ b ∈ y.submitting ∧ x' = x.submit b i y
        ∨ a = .pass b ∧ x' = { x with queue := update x.queue b rest }) := by
  have hrunning : ∀ {b : Nat} {p : Nat × Batch}, x.running b = some p →
      ∃ rest, x.queue b = p.1 :: rest ∧ x.batches[p.1]? = some p.2 := by
    intro b p hp
    obtain ⟨i, hi, hp⟩ := Option.bind_eq_some_iff.mp hp
    obtain ⟨y, hy, rfl⟩ := Option.map_eq_some_iff.mp hp
    obtain ⟨rest, hrest⟩ := head?_eq_some_iff.mp hi
    exact ⟨rest, hrest, hy⟩
  cases a with
  | process =>
    rw [Replica.step] at h
    split at h
    · rename_i r rs hq
      exact Or.inl ⟨r, rs, rfl, hq, (Option.some.inj h).symm⟩
    · cases h
  | prepare b =>
    obtain ⟨p, hp, h⟩ := Option.bind_eq_some_iff.mp h
    obtain ⟨rest, hq, hy⟩ := hrunning hp
    split at h
    · cases h
    · rename_i hnew
      exact Or.inr ⟨b, p.1, p.2, rest, hq, hy, Or.inl ⟨rfl, hnew, (Option.some.inj h).symm⟩⟩
  | submit b =>
    obtain ⟨p, hp, h⟩ := Option.bind_eq_some_iff.mp h
    obtain ⟨rest, hq, hy⟩ := hrunning hp
    split at h
    · rename_i hmem
      exact Or.inr ⟨b, p.1, p.2, rest, hq, hy,
        Or.inr (Or.inl ⟨rfl, hmem, (Option.some.inj h).symm⟩)⟩
    · cases h
  | pass b =>
    obtain ⟨p, hp, h⟩ := Option.bind_eq_some_iff.mp h
    obtain ⟨rest, hq, hy⟩ := hrunning hp
    split at h
    · refine Or.inr ⟨b, p.1, p.2, rest, hq, hy, Or.inr (Or.inr ⟨rfl, ?_⟩)⟩
      rw [hq] at h
      exact (Option.some.inj h).symm
    · cases h

theorem ReplicaSound.process (h : ReplicaSound cfg store x) (hr : WholeWrite cfg r)
    (hfew : (blockIds cfg r).length < 256) : ReplicaSound cfg store (x.process cfg r rs) := by
  have hlt : ∀ b, ∀ i ∈ x.queue b, i < x.batches.length := by
    intro b i hi
    obtain ⟨y, hy, -⟩ := h.queued b i hi
    exact lt_of_getElem? hy
  constructor
  · intro i y hy
    rcases getElem?_concat_cases hy with hold | ⟨rfl, rfl⟩
    · have hsound := h.batch i y hold
      refine { hsound with first := fun hw b hb => ?_ }
      obtain ⟨rest, hrest⟩ := head?_eq_some_iff.mp (hsound.first hw b hb)
      dsimp only [Replica.process]
      split_ifs
      · rw [hrest]
        rfl
      · rw [hrest]
        rfl
    · have hcount := hr.armed hfew
      exact ⟨hr, nodup_nil, nofun, by simpa [Batch.new] using hcount, nofun, nofun, nofun⟩
  · intro b i hi
    dsimp only [Replica.process] at hi ⊢
    have hold : i ∈ x.queue b → ∃ y, (x.batches ++ [Batch.new cfg r])[i]? = some y
        ∧ b ∈ blockIds cfg y.request := by
      intro hi
      obtain ⟨y, hy, hb⟩ := h.queued b i hi
      exact ⟨y, (getElem?_append_left (hlt b i hi)).trans hy, hb⟩
    split_ifs at hi with hb
    · rcases mem_append.mp hi with hi | hi
      · exact hold hi
      · obtain rfl := mem_singleton.mp hi
        exact ⟨_, getElem?_concat_length, hb⟩
    · exact hold hi
  · intro b
    dsimp only [Replica.process]
    split_ifs
    · exact concat_eq_append ▸ (h.nodup b).concat fun hmem => Nat.lt_irrefl _ (hlt b _ hmem)
    · exact h.nodup b
  · intro b
    dsimp only [Replica.process]
    have hold : (x.queue b).filterMap (unwritten (x.batches ++ [Batch.new cfg r]))
        = (x.queue b).filterMap (unwritten x.batches) := by
      refine filterMap_congr fun i hi => ?_
      rw [unwritten, unwritten, getElem?_append_left (hlt b i hi)]
    rw [map_append, seenBy_append, h.order b, append_assoc]
    refine congrArg (seenBy cfg b x.written ++ ·) ?_
    split_ifs with hb
    · rw [filterMap_append, hold]
      refine congrArg (_ ++ ·) ((seenBy_pos hb).trans ?_)
      rw [filterMap_cons, unwritten, getElem?_concat_length]
      rfl
    · rw [hold]
      exact (congrArg (_ ++ ·) (seenBy_neg hb)).trans (append_nil _)
  · exact h.whole
  · exact h.store

theorem ReplicaSound.set_batch (h : ReplicaSound cfg store x) (y' : Batch) {w : Bytes}
    {written : List Request} (hy : x.batches[i]? = some y) (hreq : y'.request = y.request)
    (hsound : BatchSound cfg x.queue i y') (hwhole : ∀ r ∈ written, WholeWrite cfg r)
    (hstore : w = volume store written)
    (horder : ∀ b, seenBy cfg b x.written ++ (x.queue b).filterMap (unwritten x.batches)
      = seenBy cfg b written ++ (x.queue b).filterMap (unwritten (x.batches.set i y'))) :
    ReplicaSound cfg store
      { x with batches := x.batches.set i y', store := w, written := written } := by
  refine ⟨fun j z hz => ?_, fun b j hj => ?_, h.nodup, fun b => ?_, hwhole, hstore⟩
  · rcases getElem?_set_cases hy hz with ⟨rfl, rfl⟩ | ⟨_, hz⟩
    · exact hsound
    · exact h.batch j z hz
  · obtain ⟨z, hz, hb⟩ := h.queued b j hj
    by_cases hij : i = j
    · subst hij
      obtain rfl := Option.some.inj (hy.symm.trans hz)
      exact ⟨y', getElem?_set_self (lt_of_getElem? hy), hreq ▸ hb⟩
    · exact ⟨z, (getElem?_set_ne hij).trans hz, hb⟩
  · dsimp only
    rw [map_set_eq hy hreq, h.order b]
    exact horder b

theorem ReplicaSound.prepare (h : ReplicaSound cfg store x) (hq : x.queue b = i :: rest)
    (hy : x.batches[i]? = some y) (hnew : b ∉ y.prepared) :
    ReplicaSound cfg store { x with batches := x.batches.set i (y.prepare b) } := by
  have hsound := h.batch i y hy
  obtain ⟨z, hz, hb⟩ := h.queued b i (hq ▸ mem_cons_self)
  obtain rfl := Option.some.inj (hy.symm.trans hz)
  -- the block is one of those that are missing, so the count is positive and nothing is written
  have hpos : 0 < y.sharedCount := by
    by_contra hle
    have hcount := h.batch i y hy |>.count
    have hsub := (subperm_of_subset hsound.nodup hsound.blocks).length_le
    exact hnew (hsound.all_prepared (by omega) b hb)
  have hunwritten : y.written = false := by
    by_contra hw
    have hzero := hsound.full ((Bool.not_eq_false _).mp hw)
    omega
  have hnobody : y.submitting = [] := by
    refine eq_nil_iff_forall_not_mem.mpr fun c hc => ?_
    have hzero := (hsound.submitting c hc).2.1
    omega
  refine h.set_batch (y.prepare b) hy rfl ?_ h.whole h.store fun b' => ?_
  · have hcount := hsound.count
    constructor
    · exact hsound.whole
    · exact nodup_cons.mpr ⟨hnew, hsound.nodup⟩
    · exact forall_mem_cons.mpr ⟨hb, hsound.blocks⟩
    · rw [Batch.prepare, AioCompletion.complete_of_pos hpos]
      dsimp only
      rw [hcount, length_cons]
      omega
    · intro hw
      refine forall_mem_cons.mpr ⟨?_, hsound.first hw⟩
      rw [hq]
      rfl
    · intro hw
      cases hunwritten.symm.trans hw
    · intro c hc
      rw [Batch.prepare, AioCompletion.complete_of_pos hpos, hnobody] at hc ⊢
      dsimp only at hc ⊢
      split_ifs at hc ⊢ with hone
      · rw [mem_singleton.mp hc]
        have hone := of_decide_eq_true hone
        exact ⟨hunwritten, by omega, rfl⟩
      · cases hc
  · refine congrArg (seenBy cfg b' x.written ++ ·) (filterMap_congr fun j _ => ?_)
    rw [unwritten, unwritten]
    by_cases hij : i = j
    · subst hij
      rw [getElem?_set_self (lt_of_getElem? hy), hy]
      rfl
    · rw [getElem?_set_ne hij]

theorem ReplicaSound.submit (h : ReplicaSound cfg store x) (hy : x.batches[i]? = some y)
    (hb : b ∈ y.submitting) : ReplicaSound cfg store (x.submit b i y) := by
  have hsound := h.batch i y hy
  obtain ⟨hunwritten, hzero, hone⟩ := hsound.submitting b hb
  have hothers : ∀ l : List Nat, i ∉ l → ∀ y', l.filterMap (unwritten (x.batches.set i y'))
      = l.filterMap (unwritten x.batches) := by
    intro l hl y'
    refine filterMap_congr fun j hj => ?_
    have hij : i ≠ j := fun heq => hl (heq ▸ hj)
    rw [unwritten, unwritten, getElem?_set_ne hij]
  refine h.set_batch _ hy rfl ?_ (forall_mem_append.mpr
    ⟨h.whole, forall_mem_singleton.mpr hsound.whole⟩) ?_ fun b' => ?_
  · refine { hsound with first := nofun, full := fun _ => hzero, submitting := fun c hc => ?_ }
    rw [hone, erase_cons_head] at hc
    cases hc
  · rw [volume_snoc, ← h.store, applyRequest, if_pos hsound.whole.ioType]
  · rw [seenBy_append]
    by_cases hb' : b' ∈ blockIds cfg y.request
    · obtain ⟨rest, hrest⟩ := head?_eq_some_iff.mp
        (hsound.first hunwritten b' (hsound.all_prepared hzero b' hb'))
      have hnodup := h.nodup b'
      rw [hrest] at hnodup ⊢
      rw [seenBy_pos hb', filterMap_cons, filterMap_cons,
        hothers rest (nodup_cons.mp hnodup).1, unwritten, unwritten, hy,
        getElem?_set_self (lt_of_getElem? hy)]
      simp [hunwritten]
    · rw [seenBy_neg hb', append_nil, hothers _ fun hi => ?_]
      obtain ⟨z, hz, hmem⟩ := h.queued b' i hi
      obtain rfl := Option.some.inj (hy.symm.trans hz)
      exact hb' hmem

theorem ReplicaSound.pass (h : ReplicaSound cfg store x) (hq : x.queue b = i :: rest)
    (hy : x.batches[i]? = some y) (hwritten : y.written = true) :
    ReplicaSound cfg store { x with queue := update x.queue b rest } := by
  have hsub : ∀ b', ∀ j ∈ update x.queue b rest b', j ∈ x.queue b' := by
    intro b' j hj
    by_cases hb : b' = b
    · subst hb
      rw [update_self] at hj
      exact hq ▸ mem_cons_of_mem i hj
    · rwa [update_of_ne hb] at hj
  refine ⟨fun j z hz => ?_, fun b' j hj => h.queued b' j (hsub b' j hj), fun b' => ?_,
    fun b' => ?_, h.whole, h.store⟩
  · refine { h.batch j z hz with first := fun hw c hc => ?_ }
    have hfirst := (h.batch j z hz).first hw c hc
    dsimp only
    by_cases hcb : c = b
    · subst hcb
      rw [hq] at hfirst
      cases hfirst
      obtain rfl := Option.some.inj (hy.symm.trans hz)
      cases hw.symm.trans hwritten
    · rw [update_of_ne hcb]
      exact hfirst
  · dsimp only
    by_cases hb : b' = b
    · subst hb
      rw [update_self]
      exact (nodup_cons.mp (hq ▸ h.nodup b')).2
    · rw [update_of_ne hb]
      exact h.nodup b'
  · dsimp only
    rw [h.order b']
    by_cases hb : b' = b
    · subst hb
      rw [update_self, hq, filterMap_cons, unwritten, hy]
      simp [hwritten]
    · rw [update_of_ne hb]

end Replica

/-! ## The cluster -/

section Cluster

variable {s s' : Cluster} {store : Bytes} {stores : Nat → Bytes} {i : Nat} {u : Submission}
  {x : Segment} {xs : SegmentChain}

theorem wholeWrite_message (hx : 0 < x.length ∧ x.length % cfg.blockSize = 0) (memory : Bytes) :
    WholeWrite cfg (message cfg memory x) :=
  ⟨rfl, hx.1, Nat.mul_mod_left .., hx.2⟩

def Submission.Has (cfg : TierConfig) (u : Submission) (b : Nat) : Prop :=
  ∃ x ∈ u.segments, b ∈ blockIds cfg (message cfg u.memory x)

def Submission.Apart (cfg : TierConfig) (u v : Submission) : Prop :=
  ∀ b, Submission.Has cfg u b → ¬ Submission.Has cfg v b

def Submission.ahead (cfg : TierConfig) (k : Nat) (u : Submission) : List Request :=
  if k < u.told then (u.segments.head?.map (message cfg u.memory)).toList else []

theorem seenBy_ahead (hnot : ¬ Submission.Has cfg u b) :
    seenBy cfg b (Submission.ahead cfg k u) = [] := by
  rw [Submission.ahead]
  split_ifs
  · cases hsegments : u.segments with
    | nil => rfl
    | cons x xs => exact seenBy_neg fun hb => hnot ⟨x, hsegments ▸ mem_cons_self, hb⟩
  · rfl

structure ClusterSound (cfg : TierConfig) (n : Nat) (store : Bytes) (stores : Nat → Bytes)
    (s : Cluster) : Prop where
  store : s.store = volume store s.written
  written : ∀ r ∈ s.written, WholeWrite cfg r
  segments : ∀ u ∈ s.submissions, WholeBlocks cfg u.segments
  apart : s.submissions.Pairwise (Submission.Apart cfg)
  onTheWay : ∀ k, ∀ m ∈ (s.connections k).onTheWay, WholeWrite cfg m.2
  waiting : ∀ k, ∀ r ∈ (s.replicas k).requestQueue, WholeWrite cfg r
  order : ∀ k < n, ∀ b,
    seenBy cfg b (s.written ++ s.submissions.flatMap (Submission.ahead cfg k))
      = seenBy cfg b ((s.replicas k).batches.map Batch.request ++ (s.replicas k).requestQueue
        ++ (s.connections k).onTheWay.map Prod.snd)
  replicas : ∀ k, ReplicaSound cfg (stores k) (s.replicas k)

theorem ClusterSound.seenBy_submissions (h : ClusterSound cfg n store stores s)
    (hu : s.submissions[i]? = some u) (hb : Submission.Has cfg u b) (k : Nat) :
    seenBy cfg b (s.submissions.flatMap (Submission.ahead cfg k))
        = seenBy cfg b (Submission.ahead cfg k u)
      ∧ ∀ u', seenBy cfg b ((s.submissions.set i u').flatMap (Submission.ahead cfg k))
        = seenBy cfg b (Submission.ahead cfg k u') := by
  obtain ⟨before, behind, hl, hset⟩ := exists_append_of_getElem? hu
  have hapart := h.apart
  rw [hl, pairwise_append, pairwise_cons] at hapart
  obtain ⟨-, ⟨hbehind, -⟩, hbefore⟩ := hapart
  have hnone : ∀ l : List Submission, (∀ v ∈ l, ¬ Submission.Has cfg v b) →
      seenBy cfg b (l.flatMap (Submission.ahead cfg k)) = [] := by
    intro l hl
    refine filter_eq_nil_iff.mpr fun r hr hseen => ?_
    obtain ⟨v, hv, hr⟩ := mem_flatMap.mp hr
    exact filter_eq_nil_iff.mp (seenBy_ahead (hl v hv)) r hr hseen
  have hfirst := hnone before fun v hv hhas => hbefore v hv u mem_cons_self b hhas hb
  have hlast := hnone behind fun v hv => hbehind v hv b hb
  have key : ∀ u', seenBy cfg b ((before ++ u' :: behind).flatMap (Submission.ahead cfg k))
      = seenBy cfg b (Submission.ahead cfg k u') := by
    intro u'
    rw [flatMap_append, flatMap_cons, seenBy_append, seenBy_append, hfirst, hlast,
      nil_append, append_nil]
  exact ⟨hl ▸ key u, fun u' => hset u' ▸ key u'⟩

theorem seenBy_submissions_other (hu : s.submissions[i]? = some u) {u' : Submission}
    (hsame : seenBy cfg b (Submission.ahead cfg k u') = seenBy cfg b (Submission.ahead cfg k u)) :
    seenBy cfg b ((s.submissions.set i u').flatMap (Submission.ahead cfg k))
      = seenBy cfg b (s.submissions.flatMap (Submission.ahead cfg k)) := by
  obtain ⟨before, behind, hl, hset⟩ := exists_append_of_getElem? hu
  rw [hset, hl, flatMap_append, flatMap_append, flatMap_cons, flatMap_cons,
    seenBy_append, seenBy_append, seenBy_append, seenBy_append, hsame]

theorem ClusterSound.apart_set (h : ClusterSound cfg n store stores s)
    (hu : s.submissions[i]? = some u) {u' : Submission}
    (hhas : ∀ b, Submission.Has cfg u' b → Submission.Has cfg u b) :
    (s.submissions.set i u').Pairwise (Submission.Apart cfg) := by
  obtain ⟨before, behind, hl, hset⟩ := exists_append_of_getElem? hu
  have hapart := h.apart
  rw [hl, pairwise_append, pairwise_cons] at hapart
  obtain ⟨hfirst, ⟨hbehind, hlast⟩, hbefore⟩ := hapart
  rw [hset, pairwise_append, pairwise_cons]
  refine ⟨hfirst, ⟨fun v hv b hb => hbehind v hv b (hhas b hb), hlast⟩, fun v hv => ?_⟩
  refine forall_mem_cons.mpr ⟨fun b hb hb' => ?_, fun v' hv' =>
    hbefore v hv v' (mem_cons_of_mem u hv')⟩
  exact hbefore v hv u mem_cons_self b hb (hhas b hb')

theorem ClusterSound.send (h : ClusterSound cfg n store stores s)
    (hu : s.submissions[i]? = some u) (hx : u.segments = x :: xs) :
    ClusterSound cfg n store stores (s.send cfg i x u) := by
  have hwhole := h.segments u (mem_of_getElem? hu)
  have hmessage : WholeWrite cfg (message cfg u.memory x) :=
    wholeWrite_message (hwhole x (hx ▸ mem_cons_self)) u.memory
  refine ⟨h.store, h.written, forall_mem_set h.segments hwhole, h.apart_set hu fun _ hb => hb,
    fun k m hm => ?_, h.waiting, fun k hk b => ?_, h.replicas⟩
  · dsimp only [Cluster.send] at hm
    by_cases htold : k = u.told
    · subst htold
      rw [update_self] at hm
      rcases mem_append.mp hm with hm | hm
      · exact h.onTheWay _ m hm
      · rw [mem_singleton.mp hm]
        exact hmessage
    · rw [update_of_ne htold] at hm
      exact h.onTheWay k m hm
  · dsimp only [Cluster.send]
    have hold := h.order k hk b
    rw [seenBy_append] at hold ⊢
    by_cases htold : k = u.told
    · subst htold
      have hbefore : Submission.ahead cfg u.told u = [] := if_neg (Nat.lt_irrefl _)
      have hafter : Submission.ahead cfg u.told { u with told := u.told + 1 }
          = [message cfg u.memory x] := by
        rw [Submission.ahead, hx]
        exact if_pos (Nat.lt_succ_self _)
      rw [update_self]
      dsimp only [Connection.aioCommunicate]
      rw [map_append, map_singleton, ← append_assoc, seenBy_append _ [_]]
      by_cases hb : b ∈ blockIds cfg (message cfg u.memory x)
      · -- the others have nothing for the block, so the message is the last one on both sides
        have hhas : Submission.Has cfg u b := ⟨x, hx ▸ mem_cons_self, hb⟩
        obtain ⟨hnone, hset⟩ := h.seenBy_submissions hu hhas u.told
        rw [hnone, hbefore, show seenBy cfg b [] = [] from rfl, append_nil] at hold
        rw [hset, hafter, hold]
      · rw [seenBy_submissions_other hu (by rw [hbefore, hafter, seenBy_neg hb]; rfl), hold]
        exact ((congrArg (_ ++ ·) (seenBy_neg hb)).trans (append_nil _)).symm
    · have hsame : Submission.ahead cfg k { u with told := u.told + 1 }
          = Submission.ahead cfg k u := if_congr (by dsimp only; omega) rfl rfl
      rw [update_of_ne htold, seenBy_submissions_other hu (by rw [hsame]), hold]

theorem ClusterSound.write (h : ClusterSound cfg n store stores s)
    (hu : s.submissions[i]? = some u) (hx : u.segments = x :: xs) (htold : ¬ u.told < n) :
    ClusterSound cfg n store stores (s.write cfg i x xs u) := by
  have hwhole := h.segments u (mem_of_getElem? hu)
  have hmessage : WholeWrite cfg (message cfg u.memory x) :=
    wholeWrite_message (hwhole x (hx ▸ mem_cons_self)) u.memory
  have hhas : ∀ b, Submission.Has cfg { u with segments := xs, told := 0 } b →
      Submission.Has cfg u b := by
    rintro b ⟨y, hy, hb⟩
    exact ⟨y, hx ▸ mem_cons_of_mem x hy, hb⟩
  refine ⟨?_, fun r hr => ?_, forall_mem_set h.segments fun y hy => ?_, h.apart_set hu hhas,
    h.onTheWay, h.waiting, fun k hk b => ?_, h.replicas⟩
  · dsimp only [Cluster.write]
    rw [volume_snoc, ← h.store, applyRequest, if_pos hmessage.ioType]
    -- the message carries the segment from its start on
    funext i
    unfold memcpy message
    dsimp only
    rw [Nat.zero_add]
  · rcases mem_append.mp hr with hr | hr
    · exact h.written r hr
    · rw [mem_singleton.mp hr]
      exact hmessage
  · exact hwhole y (hx ▸ mem_cons_of_mem x hy)
  · dsimp only [Cluster.write]
    have hold := h.order k hk b
    have hbefore : Submission.ahead cfg k u = [message cfg u.memory x] := by
      rw [Submission.ahead, hx]
      exact if_pos (by omega)
    have hafter : Submission.ahead cfg k { u with segments := xs, told := 0 } = [] :=
      if_neg (Nat.not_lt_zero k)
    rw [← hold, append_assoc, seenBy_append, seenBy_append, seenBy_append]
    refine congrArg (seenBy cfg b s.written ++ ·) ?_
    by_cases hb : b ∈ blockIds cfg (message cfg u.memory x)
    · have hhas' : Submission.Has cfg u b := ⟨x, hx ▸ mem_cons_self, hb⟩
      obtain ⟨hone, hset⟩ := h.seenBy_submissions hu hhas' k
      rw [hset, hafter, hone, hbefore]
      exact append_nil _
    · rw [seenBy_neg hb, nil_append]
      exact seenBy_submissions_other hu (by rw [hbefore, hafter, seenBy_neg hb]; rfl)

theorem ClusterSound.arrive (h : ClusterSound cfg n store stores s) {j : Nat} {m : Nat × Request}
    (hm : (s.connections k).onTheWay[j]? = some m)
    (hapart : ∀ m' ∈ (s.connections k).onTheWay.take j, ∀ b ∈ blockIds cfg m.2,
      b ∉ blockIds cfg m'.2) : ClusterSound cfg n store stores (s.arrive k j m.2) := by
  obtain ⟨hlt, hget⟩ := List.getElem?_eq_some_iff.mp hm
  have hsplit : (s.connections k).onTheWay = (s.connections k).onTheWay.take j
      ++ m :: (s.connections k).onTheWay.drop (j + 1) := by
    rw [← hget, getElem_cons_drop, take_append_drop]
  refine ⟨h.store, h.written, h.segments, h.apart, fun k' m' hm' => ?_, fun k' r hr => ?_,
    fun k' hk' b => ?_, fun k' => ?_⟩
  all_goals
    dsimp only [Cluster.arrive] at *
    by_cases hk : k' = k
  · subst hk
    rw [update_self] at hm'
    exact h.onTheWay k' m' (mem_of_mem_eraseIdx hm')
  · rw [update_of_ne hk] at hm'
    exact h.onTheWay k' m' hm'
  · subst hk
    rw [update_self] at hr
    rcases mem_append.mp hr with hr | hr
    · exact h.waiting k' r hr
    · rw [mem_singleton.mp hr]
      exact h.onTheWay k' m (mem_of_getElem? hm)
  · rw [update_of_ne hk] at hr
    exact h.waiting k' r hr
  · subst hk
    rw [update_self, update_self, h.order k' hk' b]
    dsimp only
    rw [eraseIdx_eq_take_drop_succ, map_append, ← append_assoc, ← append_assoc]
    conv_lhs => rw [hsplit, map_append, map_cons, ← singleton_append]
    simp only [← append_assoc, seenBy_append]
    refine congrArg (· ++ _) ?_
    by_cases hb : b ∈ blockIds cfg m.2
    · -- those before it have nothing for the block
      have hnone : seenBy cfg b (((s.connections k').onTheWay.take j).map Prod.snd) = [] := by
        refine filter_eq_nil_iff.mpr fun r hr hseen => ?_
        obtain ⟨m', hm', rfl⟩ := mem_map.mp hr
        exact hapart m' hm' b hb (of_decide_eq_true hseen)
      rw [hnone, append_nil, append_nil]
    · rw [seenBy_neg hb, append_nil, append_nil]
  · rw [update_of_ne hk, update_of_ne hk]
    exact h.order k' hk' b
  · subst hk
    rw [update_self]
    exact { h.replicas k' with }
  · rw [update_of_ne hk]
    exact h.replicas k'

theorem ClusterSound.replica (h : ClusterSound cfg n store stores s) {y : Replica}
    (hy : ReplicaSound cfg (stores k) y) (hwaiting : ∀ r ∈ y.requestQueue, WholeWrite cfg r)
    (hsame : y.batches.map Batch.request ++ y.requestQueue
      = (s.replicas k).batches.map Batch.request ++ (s.replicas k).requestQueue) :
    ClusterSound cfg n store stores { s with replicas := update s.replicas k y } := by
  refine ⟨h.store, h.written, h.segments, h.apart, h.onTheWay, fun k' r hr => ?_,
    fun k' hk' b => ?_, fun k' => ?_⟩
  all_goals
    dsimp only at *
    by_cases hk : k' = k
  · subst hk
    rw [update_self] at hr
    exact hwaiting r hr
  · rw [update_of_ne hk] at hr
    exact h.waiting k' r hr
  · subst hk
    rw [update_self, hsame]
    exact h.order k' hk' b
  · rw [update_of_ne hk]
    exact h.order k' hk' b
  · subst hk
    rw [update_self]
    exact hy
  · rw [update_of_ne hk]
    exact h.replicas k'

/-! ## In order -/

/--
A batch is not submitted while another one has a block in common with it. No message overtakes
one that has a block in common with it. On a replica no message has too many blocks for the
count, and no chain gets past `prepare_request` before its batch has been written.
-/
def NothingOvertakes (cfg : TierConfig) (s : Cluster) : Cluster.Act → Prop
  | .submit c memory => ∀ u ∈ s.submissions, ∀ x ∈ u.segments, ∀ x' ∈ c,
      ∀ b ∈ blockIds cfg (message cfg u.memory x), b ∉ blockIds cfg (message cfg memory x')
  | .advance _ => True
  | .deliver k j => ∀ m ∈ (s.connections k).onTheWay[j]?,
      ∀ m' ∈ (s.connections k).onTheWay.take j, ∀ b ∈ blockIds cfg m.2, b ∉ blockIds cfg m'.2
  | .replica k .process => ∀ r ∈ (s.replicas k).requestQueue.head?, (blockIds cfg r).length < 256
  | .replica k (.pass b) => ∀ y ∈ (s.replicas k).running b, y.2.written = true
  | .replica _ (.prepare _) => True
  | .replica _ (.submit _) => True

instance (s : Cluster) : ∀ a, Decidable (NothingOvertakes cfg s a)
  | .submit _ _ => inferInstanceAs (Decidable (∀ u ∈ s.submissions, _))
  | .deliver k j => inferInstanceAs (Decidable (∀ m ∈ (s.connections k).onTheWay[j]?, _))
  | .replica k .process => inferInstanceAs (Decidable (∀ r ∈ (s.replicas k).requestQueue.head?, _))
  | .replica k (.pass b) => inferInstanceAs (Decidable (∀ y ∈ (s.replicas k).running b, _))
  | .advance _ => inferInstanceAs (Decidable True)
  | .replica _ (.prepare _) => inferInstanceAs (Decidable True)
  | .replica _ (.submit _) => inferInstanceAs (Decidable True)

/-- **What is in order keeps the order of every block.** -/
theorem ClusterSound.step {a : Cluster.Act} (h : ClusterSound cfg n store stores s)
    (hok : NothingOvertakes cfg s a) (hs : s.step cfg n a = some s') :
    ClusterSound cfg n store stores s' := by
  cases a with
  | submit c memory =>
    rw [Cluster.step] at hs
    split at hs
    · rename_i hwhole
      cases hs
      refine { h with segments := ?_, apart := ?_, order := fun k hk b => ?_ }
      · exact forall_mem_append.mpr ⟨h.segments, forall_mem_singleton.mpr hwhole⟩
      · refine pairwise_append.mpr ⟨h.apart, pairwise_singleton .., fun u hu v hv => ?_⟩
        obtain rfl := mem_singleton.mp hv
        rintro b ⟨x, hx, hb⟩ ⟨x', hx', hb'⟩
        exact hok u hu x hx x' hx' b hb hb'
      · dsimp only
        have hahead : Submission.ahead cfg k ⟨c, 0, memory⟩ = [] := if_neg (Nat.not_lt_zero k)
        rw [flatMap_append, flatMap_singleton, hahead, append_nil]
        exact h.order k hk b
    · cases hs
  | advance i =>
    obtain ⟨u, hu, hs⟩ := Option.bind_eq_some_iff.mp hs
    split at hs
    · cases hs
    · rename_i x xs hx
      cases hs
      split_ifs with htold
      · exact h.send hu hx
      · exact h.write hu hx htold
  | deliver k j =>
    obtain ⟨m, hm, hs⟩ := Option.bind_eq_some_iff.mp hs
    split at hs
    · cases hs
      exact h.arrive hm (hok m hm)
    · cases hs
  | replica k a =>
    obtain ⟨y, hy, rfl⟩ := Option.map_eq_some_iff.mp hs
    have hsound := h.replicas k
    have hwaiting := h.waiting k
    rcases Replica.step_cases hy with ⟨r, rs, rfl, hq, rfl⟩ | ⟨b, i, z, rest, hq, hz, hact⟩
    · rw [hq] at hwaiting
      obtain ⟨hr, hrs⟩ := forall_mem_cons.mp hwaiting
      refine h.replica (hsound.process hr (hok r (by rw [hq]; rfl))) hrs ?_
      dsimp only [Replica.process]
      rw [hq, map_append, append_assoc]
      rfl
    · rcases hact with ⟨rfl, hnew, rfl⟩ | ⟨rfl, hmem, rfl⟩ | ⟨rfl, rfl⟩
      · exact h.replica (hsound.prepare hq hz hnew) hwaiting (congrArg (· ++ _) (map_set_eq hz rfl))
      · exact h.replica (hsound.submit hz hmem) hwaiting (congrArg (· ++ _) (map_set_eq hz rfl))
      · refine h.replica (hsound.pass hq hz (hok (i, z) ?_)) hwaiting rfl
        rw [Replica.running, hq, head?_cons, Option.bind_some, hz]
        rfl

theorem clusterSound_start (cfg : TierConfig) (n : Nat) (store : Bytes) (stores : Nat → Bytes) :
    ClusterSound cfg n store stores (Cluster.start store stores) where
  store := rfl
  written := nofun
  segments := nofun
  apart := List.Pairwise.nil
  onTheWay := fun _ => nofun
  waiting := fun _ => nofun
  order := fun _ _ _ => rfl
  replicas := fun _ => ⟨nofun, fun _ => nofun, fun _ => nodup_nil, fun _ => rfl, nofun, rfl⟩

/-- Everything was sent, has arrived and is written. -/
structure Quiet (n : Nat) (s : Cluster) : Prop where
  submitted : ∀ u ∈ s.submissions, u.segments = []
  delivered : ∀ k < n, (s.connections k).onTheWay = []
  processed : ∀ k < n, (s.replicas k).requestQueue = []
  done : ∀ k < n, ∀ y ∈ (s.replicas k).batches, y.written = true

theorem ClusterSound.seenBy_eq (h : ClusterSound cfg n store stores s) (hquiet : Quiet n s)
    (hk : k < n) (b : Nat) :
    seenBy cfg b s.written = seenBy cfg b (s.replicas k).written := by
  have horder := h.order k hk b
  have hahead : s.submissions.flatMap (Submission.ahead cfg k) = [] := by
    refine flatMap_eq_nil_iff.mpr fun u hu => ?_
    rw [Submission.ahead, hquiet.submitted u hu]
    exact ite_self []
  have hwritten : ((s.replicas k).queue b).filterMap (unwritten (s.replicas k).batches) = [] := by
    refine filterMap_eq_nil_iff.mpr fun i _ => ?_
    rw [unwritten]
    cases hy : (s.replicas k).batches[i]? with
    | none => rfl
    | some y => exact if_pos (hquiet.done k hk y (mem_of_getElem? hy))
  rw [hahead, hquiet.delivered k hk, hquiet.processed k hk, map_nil, append_nil,
    append_nil, append_nil, (h.replicas k).order b, hwritten, append_nil] at horder
  exact horder

/-- One replica, and zeros everywhere. -/
def smallCluster : Cluster := Cluster.start (fun _ => 0) fun _ _ => 0

/-- Blocks 0 and 1 are to be written with 5, then block 0 with 7. -/
def fives : Cluster.Act := .submit [⟨0, 4, 0⟩] fun _ => 5

def sevens : Cluster.Act := .submit [⟨0, 2, 0⟩] fun _ => 7

instance (n : Nat) (s : Cluster) : Decidable (Quiet n s) :=
  decidable_of_iff
    ((∀ u ∈ s.submissions, u.segments = [])
      ∧ (∀ k < n, (s.connections k).onTheWay.isEmpty = true)
      ∧ (∀ k < n, (s.replicas k).requestQueue.isEmpty = true)
      ∧ ∀ k < n, ∀ y ∈ (s.replicas k).batches, y.written = true)
    ⟨fun h => ⟨h.1, fun k hk => List.isEmpty_iff.mp (h.2.1 k hk),
        fun k hk => List.isEmpty_iff.mp (h.2.2.1 k hk), h.2.2.2⟩,
      fun h => ⟨h.submitted, fun k hk => List.isEmpty_iff.mpr (h.delivered k hk),
        fun k hk => List.isEmpty_iff.mpr (h.processed k hk), h.done⟩⟩

/-- The replica takes the messages off its queue and hands in the blocks of the first one. -/
def replicaPrepares : List Cluster.Act :=
  [.replica 0 .process, .replica 0 .process, .replica 0 (.prepare 0), .replica 0 (.prepare 1)]

/-- Master and replica after a run that has come to its end. -/
def outcome (acts : List Cluster.Act) : Option (List UInt8 × List UInt8) :=
  (run (Cluster.step smallTier 1) Unrestricted smallCluster acts).bind fun s =>
    if Quiet 1 s then
      some ((List.range 4).map s.store, (List.range 4).map (s.replicas 0).store)
    else none

end Cluster

end HDCS.Proof
