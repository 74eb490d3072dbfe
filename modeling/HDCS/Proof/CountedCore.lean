import HDCS.Core.CountedCore
import HDCS.Proof.Splitting
import HDCS.Proof.Wedged
import Mathlib.Data.List.Perm.Basic

/-!
# A request is completed once

A request is told of its chains one by one, by whatever threads these end on. What it has to count
on is that no chain tells it twice. A chain is through when its `BlockRequestComplete` has been
sent, and then one thread has still to report it; or one of its operations has failed, and then its
block is stuck. Either way nothing of it is sent again (`Over`), so a chain that has ended does not
end again (`EndsOnce`).

Which chains a request has is known from the list it was cut into: its block requests are on
`block_request_list` or have a chain each (`allPieces`). So at most `k` of them end, the count comes
to zero with the last one (`Tally`), and the sum that is read afterwards does not change any more
(`CountsOnce`).
-/

namespace HDCS.Proof

open Lib HDCSCore Workers CachePolicy Function Lib.Machine List

variable {n bs : Nat} {P : Policy n bs} {hbs : 0 < bs}

/-! ## Chains end once -/

section Ends

variable {f f' : HDCSCore P} {a : HDCSCore.Act} {s : Serial P} {ended : List Nat}

structure CoreKeeps (f f' : HDCSCore P) : Prop where
  nextChain : f.nextChain ≤ f'.nextChain
  chains : ∀ k < f.nextChain, f'.chains k = f.chains k
  sent : ∀ b p, p ∈ f.sent b → p ∈ f'.sent b

theorem advance_locked (w : Workers P) (i : Nat) (p : Ptr) :
    ∃ callNext, Advance w (w.lockedSection i p) i p [.completed p callNext] := by
  cases hn : w.blockOpNext p with
  | none => exact ⟨false, advance_last hn⟩
  | some q => exact ⟨true, advance_next hn⟩

theorem coreKeeps_of_step (hs : f.step hbs a = some f') : CoreKeeps f f' := by
  cases step_moves hs with
  | map scratch req rest hsc hu hd =>
    refine ⟨?_, fun k hk => mapBlock_chains_of_ne (Nat.ne_of_lt hk), fun b p hp => ?_⟩
    · show f.nextChain ≤ (f.toWorkers.mapBlock req scratch).nextChain
      rw [mapBlock_nextChain]
      exact Nat.le_succ _
    · show p ∈ (f.toWorkers.mapBlock req scratch).sent b
      rw [mapBlock_sent]
      exact hp
  | send i p op ht hop ha =>
    exact ⟨Nat.le_refl _, fun _ _ => rfl, fun b q hq => mem_update_append hq⟩
  | locked i p ht hop =>
    obtain ⟨_, hadv⟩ := advance_locked f.toWorkers i p
    refine ⟨Nat.le_of_eq hadv.nextChain.symm, fun k _ => congrFun hadv.chains k, fun b q hq => ?_⟩
    show q ∈ (f.toWorkers.lockedSection i p).sent b
    rw [lockedSection_sent]
    exact mem_update_append hq
  | _ => exact ⟨Nat.le_refl _, fun _ _ => rfl, fun _ _ hp => hp⟩

def Over (w : Workers P) (s : Serial P) (k : Nat) : Prop :=
  w.completeOp k ∈ w.sent (w.reqOf k).block ∨ Stuck s (w.reqOf k).block

theorem HandOver.not_over {w : Workers P} {i : Nat} {p : Ptr} (h : HandOver w s)
    (ht : w.tasks[i]? = some (.send p)) : ¬ Over w s p.chain := by
  obtain ⟨done, ks, hat, _⟩ := h.atOp ht
  rintro (hsent | hstuck)
  · exact hat.completeOp_not_mem (h.nodup _) hsent
  · have htoken := mem_tokens_of_send ht
    have hnil : w.tokens (w.blockOf p) = [] := (h.of_stuck hstuck).2
    rw [hnil] at htoken
    exact not_mem_nil htoken

def reporting : Task → Option Nat
  | .completed p _ => some p.chain
  | .send _ => none

def owing (w : Workers P) : List Nat := w.tasks.filterMap reporting

structure EndsOnce (w : Workers P) (s : Serial P) (ended : List Nat) : Prop where
  once : (ended ++ owing w).Nodup
  made : ∀ k ∈ ended, k < w.nextChain
  past : ∀ k ∈ ended, Over w s k

theorem reporting_sendNext {w : Workers P} {p : Ptr} :
    (w.sendNext p).filterMap reporting = [] := by
  unfold sendNext
  cases w.blockOpNext p <;> rfl

theorem owing_continueAs {w : Workers P} (w' : Workers P) {i : Nat} {t : Task} {cont : List Task}
    (ht : w.tasks[i]? = some t) (htasks : w'.tasks = w.continueAs i cont) :
    ∃ rest, (owing w).Perm ((reporting t).toList ++ rest)
      ∧ (owing w').Perm (cont.filterMap reporting ++ rest) := by
  refine ⟨(w.tasks.take i ++ w.tasks.drop (i + 1)).filterMap reporting, ?_, ?_⟩
  · have hperm : w.tasks.Perm ([t] ++ (w.tasks.take i ++ w.tasks.drop (i + 1))) := by
      conv_lhs => rw [tasks_split ht]
      exact perm_middle
    have hfilter := hperm.filterMap reporting
    rw [filterMap_append] at hfilter
    unfold owing
    refine hfilter.trans (List.Perm.append_right _ (List.Perm.of_eq ?_))
    cases hr : reporting t with
    | none => exact filterMap_cons_none hr
    | some k => exact filterMap_cons_some hr
  · have hperm : (w.continueAs i cont).Perm (cont ++ (w.tasks.take i ++ w.tasks.drop (i + 1))) := by
      unfold continueAs
      rw [← append_assoc]
      exact perm_append_comm.append_right _
    unfold owing
    rw [htasks, ← filterMap_append]
    exact hperm.filterMap reporting

theorem Over.keep {s' : Serial P} {k : Nat} (h : Over f.toWorkers s k) (hk : k < f.nextChain)
    (hkeep : CoreKeeps f f') (hstuck : ∀ b, Stuck s b → Stuck s' b) : Over f'.toWorkers s' k := by
  have hchain := hkeep.chains k hk
  unfold Over
  rw [completeOp_congr hchain, show f'.reqOf k = f.reqOf k from congrArg Chain.req hchain]
  exact h.imp (hkeep.sent _ _) (hstuck _)

/-- **A step ends at most the one chain it reports**, and that one has not ended before. -/
theorem EndsOnce.step (h : HandOver f.toWorkers s) (he : EndsOnce f.toWorkers s ended)
    (hs : f.step hbs a = some f') : ∃ s', HandOver f'.toWorkers s'
      ∧ EndsOnce f'.toWorkers s' (ended ++ (f.completes a).toList.map Prod.fst) := by
  obtain ⟨s', h', hstuck, hfail⟩ := h.next hs
  have hkeep := coreKeeps_of_step hs
  have hmade : ∀ k ∈ ended, k < f'.nextChain :=
    fun k hk => Nat.lt_of_lt_of_le (he.made k hk) hkeep.nextChain
  have hover : ∀ k ∈ ended, Over f'.toWorkers s' k :=
    fun k hk => (he.past k hk).keep (he.made k hk) hkeep hstuck
  refine ⟨s', h', ?_⟩
  -- a chain that a thread is at has neither been reported, nor is it about to be
  have hfree : ∀ (i : Nat) (p : Ptr), f.tasks[i]? = some (.send p) →
      p.chain ∉ ended ++ owing f.toWorkers := by
    intro i p ht hmem
    rcases mem_append.mp hmem with hmem | hmem
    · exact h.not_over ht (he.past _ hmem)
    · obtain ⟨t, htask, hreports⟩ := mem_filterMap.mp hmem
      obtain ⟨_, _, hat, _⟩ := h.atOp ht
      cases t with
      | send q => exact Option.some_ne_none _ hreports.symm
      | completed q callNext => exact h.ne_of_finished hat htask (Option.some.inj hreports)
  have hquiet : (owing f'.toWorkers).Perm (owing f.toWorkers) → f.completes a = none →
      EndsOnce f'.toWorkers s' (ended ++ (f.completes a).toList.map Prod.fst) := by
    intro howing hnone
    rw [hnone, Option.toList_none, map_nil, append_nil]
    exact ⟨((howing.append_left ended).nodup_iff).mpr he.once, hmade, hover⟩
  -- one more chain is reported, and it is over
  have hends : ∀ k r, f.completes a = some (k, r) → k < f'.nextChain → Over f'.toWorkers s' k →
      (ended ++ k :: owing f'.toWorkers).Nodup →
      EndsOnce f'.toWorkers s' (ended ++ (f.completes a).toList.map Prod.fst) := by
    intro k r hsome hk hkover hnodup
    rw [hsome]
    refine ⟨?_, fun j hj => ?_, fun j hj => ?_⟩
    · rw [append_assoc]
      exact hnodup
    · rcases mem_append.mp hj with hj | hj
      · exact hmade j hj
      · rw [mem_singleton.mp hj]
        exact hk
    · rcases mem_append.mp hj with hj | hj
      · exact hover j hj
      · rw [mem_singleton.mp hj]
        exact hkover
  cases step_moves hs with
  | submit _ | process _ _ _ _ | queueIo _ _ | skip _ _ _ _ _ _ | scanEnd _ _ =>
    exact hquiet (List.Perm.refl _) rfl
  | map scratch req rest hsc hu hd =>
    refine hquiet (List.Perm.of_eq ?_) rfl
    show owing (f.toWorkers.mapBlock req scratch) = owing f.toWorkers
    unfold owing
    rw [mapBlock_tasks]
    split
    · rfl
    · rw [filterMap_append]
      exact append_nil _
  | send i p op ht hop ha =>
    obtain ⟨rest, hbefore, hafter⟩ := owing_continueAs (f.toWorkers.sendOp i p op) ht rfl
    rw [reporting_sendNext] at hafter
    exact hquiet (hafter.trans hbefore.symm) (by simp [completes, ht])
  | locked i p ht hop =>
    obtain ⟨callNext, hadv⟩ := advance_locked f.toWorkers i p
    obtain ⟨rest, hbefore, hafter⟩ := owing_continueAs _ ht hadv.tasks
    have hnone : f.completes (.work i) = none := by simp [completes, ht]
    rw [hnone, Option.toList_none, map_nil, append_nil]
    refine ⟨?_, hmade, hover⟩
    have hperm : (ended ++ owing (f.toWorkers.lockedSection i p)).Perm
        (p.chain :: (ended ++ owing f.toWorkers)) := by
      refine (hafter.append_left ended).trans (perm_middle.trans ?_)
      exact (hbefore.symm.append_left ended).cons p.chain
    exact hperm.nodup_iff.mpr (nodup_cons.mpr ⟨hfree i p ht, he.once⟩)
  | notify i p callNext ht =>
    have hmem : Task.completed p callNext ∈ f.tasks := mem_of_getElem? ht
    obtain ⟨haccepted, hpe, hsent⟩ := h.finished p callNext hmem
    obtain ⟨rest, hbefore, hafter⟩ :=
      owing_continueAs (f.toWorkers.notify i p callNext) ht rfl
    have hsends : (if callNext then f.sendNext p else []).filterMap reporting = [] := by
      cases callNext with
      | true => exact reporting_sendNext
      | false => rfl
    rw [hsends] at hafter
    refine hends p.chain 0 (by simp [completes, ht]) (h.fresh _ _ haccepted) (Or.inl ?_) ?_
    · show f.completeOp p.chain ∈ f.sent (f.blockOf p)
      rw [← hpe]
      exact hsent
    · refine ((hafter.cons p.chain).append_left ended).nodup_iff.mpr ?_
      exact (hbefore.append_left ended).nodup_iff.mp he.once
  | fail i r p op ht hop hf hr =>
    obtain ⟨_, _, hat, _⟩ := h.atOp ht
    obtain ⟨rest, hbefore, hafter⟩ := owing_continueAs (f.toWorkers.failOp i p r) ht rfl
    refine hends p.chain r (by simp [completes, ht]) (h.fresh _ _ hat.mem)
      (Or.inr (hfail i r p rfl ht)) ?_
    have hperm : (ended ++ p.chain :: owing (f.toWorkers.failOp i p r)).Perm
        (p.chain :: (ended ++ owing f.toWorkers)) :=
      perm_middle.trans (((hafter.trans hbefore.symm).append_left ended).cons p.chain)
    exact hperm.nodup_iff.mpr (nodup_cons.mpr ⟨hfree i p ht, he.once⟩)

end Ends

/-! ## The block requests of a request -/

section Pieces

variable {f f' : HDCSCore P} {a : HDCSCore.Act} {r : Request}

def allPieces (f : HDCSCore P) : List (BlockRequest bs) :=
  f.skipped ++ f.unscanned ++ (List.range f.nextChain).map f.reqOf

theorem allPieces_processRequest :
    (allPieces (f.processRequest hbs r)).Perm
      (allPieces f ++ createBlockRequests bs hbs f.requests r) := by
  show ([] ++ (f.skipped ++ f.unscanned ++ createBlockRequests bs hbs f.requests r)
    ++ (List.range f.nextChain).map f.reqOf).Perm _
  unfold allPieces
  rw [nil_append, append_assoc, append_assoc (f.skipped ++ f.unscanned)]
  exact perm_append_comm.append_left _

theorem allPieces_mapBlock {req : BlockRequest bs} {rest : List (BlockRequest bs)}
    {scratch : Bytes} (hu : f.unscanned = req :: rest) :
    (allPieces { f with toWorkers := f.toWorkers.mapBlock req scratch, unscanned := rest }).Perm
      (allPieces f) := by
  have hchains : (List.range (f.nextChain + 1)).map (f.toWorkers.mapBlock req scratch).reqOf
      = (List.range f.nextChain).map f.reqOf ++ [req] := by
    rw [range_succ, map_append, map_singleton]
    refine congrArg₂ (· ++ [·]) (map_congr_left fun k hk => ?_) ?_
    · exact congrArg Chain.req (mapBlock_chains_of_ne (Nat.ne_of_lt (mem_range.mp hk)))
    · unfold Workers.reqOf
      rw [mapBlock_chains, update_self]
      rfl
  show (f.skipped ++ rest ++ (List.range (f.toWorkers.mapBlock req scratch).nextChain).map
    (f.toWorkers.mapBlock req scratch).reqOf).Perm _
  unfold allPieces
  rw [mapBlock_nextChain, hchains, hu, append_assoc, append_assoc, ← append_assoc rest]
  refine List.Perm.append_left _ (perm_append_comm.trans ?_)
  exact List.Perm.refl _

/-- **Block requests are made by cutting requests, and none is lost.** -/
theorem allPieces_of_step (hs : f.step hbs a = some f') :
    (allPieces f').Perm
        (allPieces f ++ (f.cuts a).toList.flatMap (createBlockRequests bs hbs f.requests))
      ∧ f'.requests = f.requests + (f.cuts a).toList.length := by
  have hquiet : f.cuts a = none → (allPieces f').Perm (allPieces f) → f'.requests = f.requests →
      (allPieces f').Perm
        (allPieces f ++ (f.cuts a).toList.flatMap (createBlockRequests bs hbs f.requests))
      ∧ f'.requests = f.requests + (f.cuts a).toList.length := by
    intro hnone hperm hrequests
    rw [hnone, Option.toList_none, flatMap_nil, append_nil]
    exact ⟨hperm, hrequests⟩
  cases step_moves hs with
  | process r q hq hsc =>
    have hcuts : f.cuts .process = some r := by rw [cuts, hq, head?_cons]
    rw [hcuts, Option.toList_some, flatMap_singleton]
    exact ⟨allPieces_processRequest, rfl⟩
  | queueIo r hsc =>
    have hcuts : f.cuts (.queueIo r) = some r := rfl
    rw [hcuts, Option.toList_some, flatMap_singleton]
    exact ⟨allPieces_processRequest, rfl⟩
  | skip scratch req rest hsc hu hd =>
    refine hquiet rfl (List.Perm.of_eq ?_) rfl
    unfold allPieces
    rw [hu, append_assoc f.skipped]
    rfl
  | map scratch req rest hsc hu hd => exact hquiet rfl (allPieces_mapBlock hu) rfl
  | locked i p ht hop =>
    obtain ⟨_, hadv⟩ := advance_locked f.toWorkers i p
    refine hquiet rfl (List.Perm.of_eq ?_) rfl
    show f.skipped ++ f.unscanned ++ (List.range (f.toWorkers.lockedSection i p).nextChain).map
      (f.toWorkers.lockedSection i p).reqOf = _
    unfold allPieces Workers.reqOf
    rw [hadv.nextChain, hadv.chains]
  | _ => exact hquiet rfl (List.Perm.refl _) rfl

theorem req_of_mem_createBlockRequests {j : Nat} {q : BlockRequest bs}
    (hq : q ∈ createBlockRequests bs hbs j r) : q.req = j := by
  by_cases hlen : r.length = 0
  · unfold createBlockRequests at hq
    rw [hlen, splitLoop_zero] at hq
    exact absurd hq not_mem_nil
  · obtain ⟨_, _, _, hpiece⟩ :=
      (cut_createBlockRequests hbs j (Nat.pos_of_ne_zero hlen)).piece q hq
    exact hpiece.req

end Pieces

/-! ## Counts -/

section Tally

variable {c : RequestCount} {k : Nat} {rs : List Int}

structure Tally (c : RequestCount) (k : Nat) (rs : List Int) : Prop where
  pending : c.pendingRequests.toNat + rs.length = k
  status : c.status = .ofInt rs.sum

theorem tally_new : Tally .new 0 [] := ⟨rfl, rfl⟩

theorem foldl_addRequest {α : Type} (l : List α) (c : RequestCount) :
    l.foldl (fun c _ => c.addRequest) c
      = { c with pendingRequests := c.pendingRequests + .ofNat l.length } := by
  induction l generalizing c with
  | nil => exact congrArg (RequestCount.mk · c.status) (UInt32.add_zero _).symm
  | cons x l ih =>
    rw [foldl_cons, ih, length_cons, Nat.add_comm, UInt32.ofNat_add, ← UInt32.add_assoc]
    rfl

theorem tally_begin {α : Type} {l : List α} (hl : l.length < 2 ^ 32) :
    Tally (l.foldl (fun c _ => c.addRequest) .new) l.length [] := by
  rw [foldl_addRequest]
  refine ⟨?_, rfl⟩
  show ((0 : UInt32) + .ofNat l.length).toNat + 0 = l.length
  rw [UInt32.zero_add, UInt32.toNat_ofNat', Nat.mod_eq_of_lt hl, Nat.add_zero]

theorem Tally.complete (h : Tally c k rs) (hlt : rs.length < k) (r : Int) :
    Tally (c.complete r).1 k (rs ++ [r]) ∧ ((c.complete r).2 = true ↔ rs.length + 1 = k) := by
  have hpending := h.pending
  have hone : (c.pendingRequests - 1).toNat = c.pendingRequests.toNat - 1 := by
    refine UInt32.toNat_sub_of_le _ _ (UInt32.le_iff_toNat_le.mpr ?_)
    show 1 ≤ c.pendingRequests.toNat
    omega
  refine ⟨⟨?_, ?_⟩, ?_⟩
  · show (c.pendingRequests - 1).toNat + (rs ++ [r]).length = k
    rw [hone, length_append, length_singleton]
    omega
  · show c.status + .ofInt r = _
    rw [h.status, sum_append, sum_singleton, Int64.ofInt_add]
  · show (c.pendingRequests - 1 == 0) = true ↔ _
    rw [beq_iff_eq, ← UInt32.toNat_inj, hone]
    show c.pendingRequests.toNat - 1 = 0 ↔ _
    omega

theorem sum_results (h : ∀ r ∈ rs, -2 ^ 31 ≤ r ∧ r ≤ 0) :
    -2 ^ 31 * (rs.length : Int) ≤ rs.sum ∧ rs.sum ≤ 0 ∧ (rs.sum < 0 ↔ ∃ r ∈ rs, r < 0) := by
  induction rs with
  | nil => exact ⟨by simp, by simp, by simp⟩
  | cons r rs ih =>
    obtain ⟨⟨hlow, hhigh⟩, hrest⟩ := forall_mem_cons.mp h
    obtain ⟨hsum, hsum', hneg⟩ := ih hrest
    rw [sum_cons, length_cons, exists_mem_cons_iff, ← hneg]
    push_cast
    refine ⟨by omega, by omega, by omega⟩

/-- **The status is negative if and only if a chain has failed.** -/
theorem Tally.status_neg_iff (h : Tally c k rs) (hk : k < 2 ^ 32)
    (hrs : ∀ r ∈ rs, -2 ^ 31 ≤ r ∧ r ≤ 0) : c.status < 0 ↔ ∃ r ∈ rs, r < 0 := by
  obtain ⟨hlow, hhigh, hneg⟩ := sum_results hrs
  have hlen : rs.length < 2 ^ 32 := Nat.lt_of_le_of_lt (by have := h.pending; omega) hk
  rw [h.status, Int64.lt_iff_toInt_lt, Int64.toInt_ofInt_of_le (by omega) (by omega), ← hneg]
  rfl

structure CountsOnce (c : RequestCount) (k : Nat) (ended : List ChainEnd) (leaving : Nat)
    (values : List Int64) : Prop where
  tally : Tally c k (ended.map ChainEnd.r)
  once : leaving + values.length = if ended.length = k ∧ 0 < k then 1 else 0
  values : ∀ v ∈ values, v = c.status

variable {ended : List ChainEnd} {leaving : Nat} {values : List Int64}

theorem countsOnce_begin {α : Type} {l : List α} (hl : l.length < 2 ^ 32) :
    CountsOnce (l.foldl (fun c _ => c.addRequest) .new) l.length [] 0 [] where
  tally := tally_begin hl
  once := by
    rw [if_neg]
    · rfl
    · rintro ⟨hzero, hpos⟩
      exact Nat.ne_of_lt hpos hzero
  values := fun v hv => absurd hv not_mem_nil

theorem CountsOnce.undecided (h : CountsOnce c k ended leaving values)
    (hlt : ended.length < k ∨ k = 0) : leaving = 0 ∧ values = [] := by
  have honce := h.once
  rw [if_neg (by omega)] at honce
  exact ⟨by omega, eq_nil_of_length_eq_zero (by omega)⟩

theorem CountsOnce.complete (h : CountsOnce c k ended leaving values) (hlt : ended.length < k)
    (e : ChainEnd) : CountsOnce (c.complete e.r).1 k (ended ++ [e])
      (leaving + if (c.complete e.r).2 then 1 else 0) values := by
  obtain ⟨rfl, rfl⟩ := h.undecided (Or.inl hlt)
  have hlen : (ended.map ChainEnd.r).length < k := by
    rw [length_map]
    exact hlt
  obtain ⟨htally, hcompleted⟩ := h.tally.complete hlen e.r
  rw [length_map] at hcompleted
  refine ⟨?_, ?_, fun v hv => absurd hv not_mem_nil⟩
  · rw [map_append, map_singleton]
    exact htally
  · have hfull : (c.complete e.r).2 = true ↔ (ended ++ [e]).length = k ∧ 0 < k := by
      rw [hcompleted, length_append, length_singleton]
      omega
    rw [Nat.zero_add, length_nil, Nat.add_zero]
    exact if_congr hfull rfl rfl

theorem CountsOnce.report (h : CountsOnce c k ended (leaving + 1) values) :
    CountsOnce c k ended leaving (values ++ [c.status]) := by
  refine ⟨h.tally, ?_, fun v hv => ?_⟩
  · rw [length_append, length_singleton, ← h.once]
    omega
  · rcases mem_append.mp hv with hv | hv
    · exact h.values v hv
    · exact mem_singleton.mp hv

end Tally

/-! ## Requests -/

def cutOf (hbs : 0 < bs) (s : CountedCore P) (j : Nat) : List (BlockRequest bs) :=
  (s.started[j]?).toList.flatMap (createBlockRequests bs hbs j)

theorem cutOf_eq {s : CountedCore P} {j : Nat} {r : Request} (hj : s.started[j]? = some r) :
    cutOf hbs s j = createBlockRequests bs hbs j r := by
  unfold cutOf
  rw [hj, Option.toList_some, flatMap_singleton]

def endedOf (s : CountedCore P) (j : Nat) : List ChainEnd := s.ended.filter (·.req = j)

/-- The values that `comp` of request `j` was called with. -/
def reportedOf (s : CountedCore P) (j : Nat) : List Int64 :=
  (s.reported.filter (·.1 = j)).map Prod.snd

structure Counted (hbs : 0 < bs) (s : CountedCore P) : Prop where
  serial : ∃ t, HandOver s.core.toWorkers t
    ∧ EndsOnce s.core.toWorkers t (s.ended.map ChainEnd.chain)
  started : s.started.length = s.core.requests
  cut : ∀ j, ((allPieces s.core).filter (·.req = j)).Perm (cutOf hbs s j)
  reqs : ∀ e ∈ s.ended, e.req = (s.core.reqOf e.chain).req
  results : ∀ e ∈ s.ended, -2 ^ 31 ≤ e.r ∧ e.r ≤ 0

section Requests

variable {s s' : CountedCore P} {j : Nat} {r : Request}

theorem Counted.subperm (h : Counted hbs s) (j : Nat) :
    ((endedOf s j).map fun e => s.core.reqOf e.chain).Subperm (cutOf hbs s j) := by
  obtain ⟨t, _, hends⟩ := h.serial
  have hsub : ((endedOf s j).map ChainEnd.chain).Sublist (s.ended.map ChainEnd.chain) :=
    filter_sublist.map _
  have hnodup := hsub.nodup hends.once.of_append_left
  have hrange : (endedOf s j).map ChainEnd.chain ⊆ List.range s.core.nextChain :=
    fun k hk => mem_range.mpr (hends.made k (hsub.subset hk))
  -- they are chains, and a chain has its block request among the pieces
  obtain ⟨l, hl, hlsub⟩ := subperm_of_subset hnodup hrange
  have hpieces : (((endedOf s j).map ChainEnd.chain).map s.core.reqOf).Subperm
      (allPieces s.core) :=
    ⟨l.map s.core.reqOf, hl.map _, (hlsub.map _).trans (sublist_append_right _ _)⟩
  rw [map_map] at hpieces
  have hfilter := hpieces.filter fun q => decide (q.req = j)
  rw [filter_eq_self.mpr ?_] at hfilter
  · exact hfilter.trans (h.cut j).subperm
  · intro q hq
    obtain ⟨e, he, rfl⟩ := mem_map.mp hq
    obtain ⟨he, hj⟩ := mem_filter.mp he
    exact decide_eq_true ((h.reqs e he).symm.trans (of_decide_eq_true hj))

theorem Counted.length_le (h : Counted hbs s) (j : Nat) :
    (endedOf s j).length ≤ (cutOf hbs s j).length := by
  have hle := (h.subperm j).length_le
  rwa [length_map] at hle

theorem counted_start (pol : P.State) : Counted hbs (CountedCore.start pol) where
  serial := ⟨_, handOver_start pol, nodup_nil, fun _ hk => absurd hk not_mem_nil,
    fun _ hk => absurd hk not_mem_nil⟩
  started := rfl
  cut := fun _ => List.Perm.refl _
  reqs := fun _ he => absurd he not_mem_nil
  results := fun _ he => absurd he not_mem_nil

theorem cutOf_append (hs' : s'.started = s.started ++ [r]) (j : Nat) :
    cutOf hbs s' j
      = cutOf hbs s j ++ if j = s.started.length then createBlockRequests bs hbs j r else [] := by
  unfold cutOf
  rw [hs']
  by_cases hj : j = s.started.length
  · rw [if_pos hj, hj, getElem?_concat_length, getElem?_eq_none (Nat.le_refl _)]
    exact flatMap_singleton ..
  · rw [if_neg hj, append_nil]
    rcases Nat.lt_or_ge j s.started.length with hlt | hge
    · rw [getElem?_append_left hlt]
    · rw [getElem?_eq_none hge, getElem?_eq_none]
      rw [length_append, length_singleton]
      omega

theorem filter_createBlockRequests (i j : Nat) :
    (createBlockRequests bs hbs i r).filter (fun q => decide (q.req = j))
      = if j = i then createBlockRequests bs hbs j r else [] := by
  by_cases hij : j = i
  · rw [if_pos hij, hij]
    refine filter_eq_self.mpr fun q hq => ?_
    exact decide_eq_true (req_of_mem_createBlockRequests hq)
  · rw [if_neg hij]
    refine filter_eq_nil_iff.mpr fun q hq => ?_
    rw [req_of_mem_createBlockRequests hq]
    exact fun he => hij (of_decide_eq_true he).symm

theorem completes_result {f f' : HDCSCore P} {a : HDCSCore.Act} {k : Nat} {x : Int}
    (hs : f.step hbs a = some f') (hx : f.completes a = some (k, x)) (hfits : fitsInt a = true) :
    -2 ^ 31 ≤ x ∧ x ≤ 0 := by
  cases step_moves hs with
  | notify i p callNext ht =>
    simp only [completes, ht, Option.some.injEq, Prod.mk.injEq] at hx
    omega
  | fail i r p op ht hop hf hr =>
    simp only [completes, ht, Option.some.injEq, Prod.mk.injEq] at hx
    have hlow : -2 ^ 31 ≤ r := of_decide_eq_true hfits
    omega
  | send i p op ht hop ha | locked i p ht hop => simp [completes, ht] at hx
  | _ => exact (Option.some_ne_none _ hx.symm).elim

theorem completes_lt {f : HDCSCore P} {t : Serial P} {a : HDCSCore.Act} {k : Nat} {x : Int}
    (h : HandOver f.toWorkers t) (hx : f.completes a = some (k, x)) : k < f.nextChain := by
  unfold completes at hx
  split at hx
  · split at hx
    · rename_i p _ ht
      obtain ⟨rfl, _⟩ := Prod.mk.inj (Option.some.inj hx)
      exact h.lt_nextChain_of_mem_tasks (mem_of_getElem? ht)
    · exact (Option.some_ne_none _ hx.symm).elim
  · split at hx
    · rename_i p ht
      obtain ⟨rfl, _⟩ := Prod.mk.inj (Option.some.inj hx)
      exact h.lt_nextChain_of_mem_tasks (mem_of_getElem? ht)
    · exact (Option.some_ne_none _ hx.symm).elim
  all_goals exact (Option.some_ne_none _ hx.symm).elim

theorem Counted.core {a : HDCSCore.Act} (h : Counted hbs s)
    (hcore : s.core.step hbs a = some s'.core)
    (hstarted : s'.started = s.started ++ (s.core.cuts a).toList)
    (hended : s'.ended = s.ended ++ (s.core.completes a).toList.map
      fun x => ⟨x.1, (s.core.reqOf x.1).req, x.2⟩)
    (hfits : fitsInt a = true ∨ s.core.completes a = none) : Counted hbs s' := by
  obtain ⟨t, hover, hends⟩ := h.serial
  obtain ⟨t', hover', hends'⟩ := hends.step hover hcore
  obtain ⟨hpieces, hrequests⟩ := allPieces_of_step hcore
  have hkeep := coreKeeps_of_step hcore
  have hnew : ∀ e ∈ (s.core.completes a).toList.map
      fun x => (⟨x.1, (s.core.reqOf x.1).req, x.2⟩ : ChainEnd),
      s.core.completes a = some (e.chain, e.r) ∧ e.req = (s.core.reqOf e.chain).req := by
    intro e he
    obtain ⟨x, hx, rfl⟩ := mem_map.mp he
    exact ⟨Option.mem_toList.mp hx, rfl⟩
  have hreq : ∀ k < s.core.nextChain, s'.core.reqOf k = s.core.reqOf k :=
    fun k hk => congrArg Chain.req (hkeep.chains k hk)
  refine ⟨⟨t', hover', ?_⟩, ?_, fun j => ?_, fun e he => ?_, fun e he => ?_⟩
  · rw [hended, map_append, map_map]
    exact hends'
  · rw [hstarted, length_append, h.started, hrequests]
  · refine (hpieces.filter _).trans ?_
    rw [filter_append]
    cases hcuts : s.core.cuts a with
    | none =>
      rw [hcuts, Option.toList_none, append_nil] at hstarted
      rw [Option.toList_none, flatMap_nil, filter_nil, append_nil]
      unfold cutOf
      rw [hstarted]
      exact h.cut j
    | some r =>
      rw [hcuts, Option.toList_some] at hstarted
      rw [Option.toList_some, flatMap_singleton, cutOf_append hstarted,
        filter_createBlockRequests, h.started]
      exact (h.cut j).append_right _
  · rw [hended] at he
    rcases mem_append.mp he with he | he
    · rw [hreq e.chain (hends.made _ (mem_map_of_mem he))]
      exact h.reqs e he
    · obtain ⟨hx, hr⟩ := hnew e he
      rw [hreq e.chain (completes_lt hover hx)]
      exact hr
  · rw [hended] at he
    rcases mem_append.mp he with he | he
    · exact h.results e he
    · obtain ⟨hx, _⟩ := hnew e he
      refine completes_result hcore hx (hfits.resolve_right fun hnone => ?_)
      exact Option.some_ne_none _ (hx.symm.trans hnone)

theorem completes_of_cuts {f : HDCSCore P} {a : HDCSCore.Act} {r : Request}
    (h : f.cuts a = some r) : f.completes a = none := by
  cases a with
  | process | queueIo _ => rfl
  | submit _ | scan _ | scanEnd | work _ | fail _ _ => exact (Option.some_ne_none _ h.symm).elim

theorem Counted.step {a : CountedCore.Act} (h : Counted hbs s) (hs : s.step hbs a = some s') :
    Counted hbs s' := by
  cases CountedCore.step_moves hs with
  | quiet a core hcore hcuts hcompletes =>
    refine h.core hcore ?_ ?_ (Or.inr hcompletes)
    · rw [hcuts]
      exact (append_nil _).symm
    · rw [hcompletes]
      exact (append_nil _).symm
  | begin a core r hcore hcuts =>
    have hcompletes := completes_of_cuts hcuts
    refine h.core hcore ?_ ?_ (Or.inr hcompletes)
    · rw [hcuts]
      rfl
    · rw [hcompletes]
      exact (append_nil _).symm
  | complete a core chain x hcore hcuts hcompletes hfits =>
    refine h.core hcore ?_ ?_ (Or.inl hfits)
    · rw [hcuts]
      exact (append_nil _).symm
    · rw [hcompletes]
      rfl
  | report i req hreq => exact ⟨h.serial, h.started, h.cut, h.reqs, h.results⟩

def CountsOnceAt (hbs : 0 < bs) (s : CountedCore P) (j : Nat) : Prop :=
  CountsOnce (s.counts j) (cutOf hbs s j).length (endedOf s j) (s.leaving.count j) (reportedOf s j)

theorem CountsOnceAt.begin (h : Counted hbs s) (hj : CountsOnceAt hbs s j) (core : HDCSCore P)
    (hlt : (cutOf hbs { s.begin hbs r with core } j).length < 2 ^ 32) :
    CountsOnceAt hbs { s.begin hbs r with core } j := by
  have hcut : cutOf hbs { s.begin hbs r with core } j = cutOf hbs s j
      ++ if j = s.started.length then createBlockRequests bs hbs j r else [] := cutOf_append rfl j
  show CountsOnce (update s.counts s.core.requests _ j) _ (endedOf s j) (s.leaving.count j)
    (reportedOf s j)
  rw [← h.started]
  by_cases he : j = s.started.length
  · -- a request that is new has no chains yet
    have hnone : cutOf hbs s j = [] := by
      unfold cutOf
      rw [he, getElem?_eq_none (Nat.le_refl _)]
      rfl
    have hended : endedOf s j = [] := by
      have hle := h.length_le j
      rw [hnone] at hle
      exact eq_nil_of_length_eq_zero (Nat.le_zero.mp hle)
    obtain ⟨hleaving, hvalues⟩ := hj.undecided (Or.inr (by rw [hnone]; rfl))
    rw [hnone, nil_append, if_pos he] at hcut
    rw [hcut] at hlt
    rw [hcut, hended, hleaving, hvalues, he, update_self]
    rw [he] at hlt
    exact countsOnce_begin hlt
  · rw [hcut, if_neg he, append_nil, update_of_ne he]
    exact hj

theorem CountsOnceAt.complete {chain : Nat} {x : Int} (hj : CountsOnceAt hbs s j)
    (core : HDCSCore P)
    (hle : (endedOf { s.complete chain x with core } j).length ≤ (cutOf hbs s j).length) :
    CountsOnceAt hbs { s.complete chain x with core } j := by
  let e : ChainEnd := ⟨chain, (s.core.reqOf chain).req, x⟩
  have hended : endedOf { s.complete chain x with core } j
      = endedOf s j ++ if e.req = j then [e] else [] := by
    show (s.ended ++ [e]).filter _ = _
    rw [filter_append, filter_singleton]
    by_cases he : e.req = j
    · rw [if_pos he, decide_eq_true he]
      rfl
    · rw [if_neg he, decide_eq_false he]
      rfl
  have hleaving : (s.complete chain x).leaving.count j = s.leaving.count j
      + if e.req = j ∧ ((s.counts e.req).complete x).2 = true then 1 else 0 := by
    show (if ((s.counts e.req).complete x).2 = true then s.leaving ++ [e.req]
      else s.leaving).count j = _
    by_cases hc : ((s.counts e.req).complete x).2 = true
    · rw [if_pos hc, count_append, count_singleton]
      by_cases he : e.req = j
      · rw [if_pos (beq_iff_eq.mpr he), if_pos ⟨he, hc⟩]
      · rw [if_neg (fun h => he (beq_iff_eq.mp h)), if_neg fun h => he h.1]
    · rw [if_neg hc, if_neg fun h => hc h.2, Nat.add_zero]
  show CountsOnce (update s.counts e.req ((s.counts e.req).complete x).1 j) _ _
    ((s.complete chain x).leaving.count j) (reportedOf s j)
  rw [hleaving, hended]
  rw [hended] at hle
  by_cases he : e.req = j
  · rw [if_pos he, length_append, length_singleton] at hle
    rw [if_pos he, he, update_self]
    simp only [true_and]
    exact CountsOnce.complete hj hle e
  · rw [update_of_ne (Ne.symm he), if_neg he, if_neg fun h => he h.1, append_nil]
    exact hj

theorem CountsOnceAt.report {i req : Nat} (hj : CountsOnceAt hbs s j)
    (hreq : s.leaving[i]? = some req) :
    CountsOnceAt hbs { s with
      leaving := s.leaving.eraseIdx i
      reported := s.reported ++ [(req, (s.counts req).status)] } j := by
  obtain ⟨hlt, hget⟩ := List.getElem?_eq_some_iff.mp hreq
  have hleaving : s.leaving.count j
      = (s.leaving.eraseIdx i).count j + if req = j then 1 else 0 := by
    rw [← (getElem_cons_eraseIdx_perm hlt).count_eq j, hget, count_cons]
    simp only [beq_iff_eq]
  have hreported : reportedOf { s with
      leaving := s.leaving.eraseIdx i
      reported := s.reported ++ [(req, (s.counts req).status)] } j
      = reportedOf s j ++ if req = j then [(s.counts j).status] else [] := by
    show ((s.reported ++ [(req, (s.counts req).status)]).filter _).map _ = _
    rw [filter_append, map_append, filter_singleton]
    by_cases he : req = j
    · rw [if_pos he, decide_eq_true he, he]
      rfl
    · rw [if_neg he, decide_eq_false he]
      rfl
  unfold CountsOnceAt at hj ⊢
  rw [hleaving] at hj
  rw [hreported]
  by_cases he : req = j
  · rw [if_pos he] at hj ⊢
    exact hj.report
  · rw [if_neg he] at hj ⊢
    rw [append_nil]
    exact hj

theorem CountsOnceAt.step {a : CountedCore.Act} (h : Counted hbs s) (hj : CountsOnceAt hbs s j)
    (hs : s.step hbs a = some s') (hlt : (cutOf hbs s' j).length < 2 ^ 32) :
    CountsOnceAt hbs s' j := by
  have hle := (h.step hs).length_le j
  cases CountedCore.step_moves hs with
  | quiet a core hcore hcuts hcompletes => exact hj
  | begin a core r hcore hcuts => exact hj.begin h core hlt
  | complete a core chain x hcore hcuts hcompletes hfits => exact hj.complete core hle
  | report i req hreq => exact hj.report hreq

theorem grows_of_step {a : CountedCore.Act} (hs : s.step hbs a = some s')
    (hj : s.started[j]? = some r) : s'.started[j]? = some r
      ∧ (endedOf s j).length ≤ (endedOf s' j).length
      ∧ (endedOf s' j).length ≤ (endedOf s j).length + 1 := by
  cases CountedCore.step_moves hs with
  | quiet a core hcore hcuts hcompletes | report i req hreq =>
    exact ⟨hj, Nat.le_refl _, Nat.le_succ _⟩
  | begin a core r' hcore hcuts =>
    refine ⟨?_, Nat.le_refl _, Nat.le_succ _⟩
    show (s.started ++ [r'])[j]? = some r
    rw [getElem?_append_left (List.getElem?_eq_some_iff.mp hj).1]
    exact hj
  | complete a core chain x hcore hcuts hcompletes hfits =>
    have hended : endedOf { s.complete chain x with core } j = endedOf s j
        ++ [⟨chain, (s.core.reqOf chain).req, x⟩].filter fun e => decide (e.req = j) :=
      filter_append ..
    refine ⟨hj, ?_, ?_⟩
    · rw [hended, length_append]
      exact Nat.le_add_right _ _
    · rw [hended, length_append]
      exact Nat.add_le_add_left (length_filter_le _ _) _

end Requests

/-- What a client may rely on for its request. -/
structure CompletesOnce (hbs : 0 < bs) (s : CountedCore P) (j : Nat) (r : Request) : Prop where
  /-- Each chain that has ended is that of another block request. -/
  pieces : ((endedOf s j).map fun e => s.core.reqOf e.chain).Subperm
    (createBlockRequests bs hbs j r)
  /-- There is one call of `comp`, made or about to be made, when all of them have ended, and none
  before. -/
  once : s.leaving.count j + (reportedOf s j).length
    = if (endedOf s j).length = (createBlockRequests bs hbs j r).length then 1 else 0
  /-- The call is due with the step in which the last block request completes. -/
  last : ∀ a s', s.step hbs a = some s' →
    (s'.leaving.count j + (reportedOf s' j).length
        = s.leaving.count j + (reportedOf s j).length + 1
      ↔ (endedOf s j).length + 1 = (createBlockRequests bs hbs j r).length
        ∧ (endedOf s' j).length = (createBlockRequests bs hbs j r).length)
  /-- It says whether one of them has failed. -/
  faithful : ∀ v ∈ reportedOf s j, v < 0 ↔ ∃ e ∈ endedOf s j, e.r < 0

section Runs

variable {s : CountedCore P}

def CountedRun (hbs : 0 < bs) (s : CountedCore P) : Prop :=
  Counted hbs s ∧ ∀ j, (cutOf hbs s j).length < 2 ^ 32 → CountsOnceAt hbs s j

theorem countedRun_reachable {pol : P.State}
    (h : Reachable (CountedCore.step hbs) Unrestricted (CountedCore.start pol) s) :
    CountedRun hbs s := by
  have hstart : CountedRun hbs (CountedCore.start pol) :=
    ⟨counted_start pol, fun j _ => ⟨tally_new, rfl, fun v hv => absurd hv not_mem_nil⟩⟩
  refine h.invariant hstart ?_
  rintro s a s' ⟨hcounted, hcounts⟩ _ hs
  refine ⟨hcounted.step hs, fun j hlt => ?_⟩
  refine CountsOnceAt.step hcounted (hcounts j (Nat.lt_of_le_of_lt ?_ hlt)) hs hlt
  cases hj : s.started[j]? with
  | none =>
    unfold cutOf
    rw [hj]
    exact Nat.zero_le _
  | some r => rw [cutOf_eq hj, cutOf_eq (grows_of_step hs hj).1]

theorem CountedRun.once {j : Nat} {r : Request} (h : CountedRun hbs s)
    (hj : s.started[j]? = some r) (hlen : 1 ≤ r.length)
    (hk : (createBlockRequests bs hbs j r).length < 2 ^ 32) :
    s.leaving.count j + (reportedOf s j).length
      = if (endedOf s j).length = (createBlockRequests bs hbs j r).length then 1 else 0 := by
  have hcounts := h.2 j (by rw [cutOf_eq hj]; exact hk)
  obtain ⟨q, hq, _⟩ := (cut_createBlockRequests hbs j hlen).first
  rw [hcounts.once, cutOf_eq hj]
  exact if_congr (and_iff_left (length_pos_of_mem hq)) rfl rfl

theorem CountedRun.faithful {j : Nat} {r : Request} (h : CountedRun hbs s)
    (hj : s.started[j]? = some r) (hk : (createBlockRequests bs hbs j r).length < 2 ^ 32)
    {v : Int64} (hv : v ∈ reportedOf s j) : v < 0 ↔ ∃ e ∈ endedOf s j, e.r < 0 := by
  have hcut : (cutOf hbs s j).length < 2 ^ 32 := by
    rw [cutOf_eq hj]
    exact hk
  have hcounts := h.2 j hcut
  have hresults : ∀ x ∈ (endedOf s j).map ChainEnd.r, -2 ^ 31 ≤ x ∧ x ≤ 0 := by
    intro x hx
    obtain ⟨e, he, rfl⟩ := mem_map.mp hx
    exact h.1.results e (mem_of_mem_filter he)
  rw [hcounts.values v hv, hcounts.tally.status_neg_iff hcut hresults]
  constructor
  · rintro ⟨x, hx, hneg⟩
    obtain ⟨e, he, rfl⟩ := mem_map.mp hx
    exact ⟨e, he, hneg⟩
  · rintro ⟨e, he, hneg⟩
    exact ⟨e.r, mem_map_of_mem he, hneg⟩

end Runs

/-- **A request is completed once**, in the step in which the last of its block requests is, and the
client is told that it failed if and only if one of them did. -/
theorem request_completes_once (P : Policy n bs) (hbs : 0 < bs) (pol : P.State)
    (s : CountedCore P) (j : Nat) (r : Request)
    (h : Reachable (CountedCore.step hbs) Unrestricted (CountedCore.start pol) s)
    (hj : s.started[j]? = some r) (hlen : 1 ≤ r.length)
    (hk : (createBlockRequests bs hbs j r).length < 2 ^ 32) : CompletesOnce hbs s j r := by
  have hrun := countedRun_reachable h
  refine ⟨?_, hrun.once hj hlen hk, fun a s' hs => ?_, fun v hv => hrun.faithful hj hk hv⟩
  · rw [← cutOf_eq hj]
    exact hrun.1.subperm j
  · have hrun' := countedRun_reachable (.tail h trivial hs)
    obtain ⟨hj', hge, hle⟩ := grows_of_step hs hj
    have hbound := hrun'.1.length_le j
    rw [cutOf_eq hj'] at hbound
    rw [hrun.once hj hlen hk, hrun'.once hj' hlen hk]
    by_cases hfull : (endedOf s j).length = (createBlockRequests bs hbs j r).length
    · rw [if_pos hfull, if_pos (by omega)]
      omega
    · rw [if_neg hfull]
      by_cases hfull' : (endedOf s' j).length = (createBlockRequests bs hbs j r).length
      · rw [if_pos hfull']
        omega
      · rw [if_neg hfull']
        omega

/-- A READ of two blocks, the first of which cannot be read: the client hears of it when the second
one has been read. -/
theorem request_completes_once_failed :
    ∃ (s : CountedCore (policy (smallCache 0 .writeBack))) (r : Request),
      s.started[0]? = some r ∧ s.reported = [(0, -5)]
        ∧ CompletesOnce (smallCache 0 .writeBack).blockSize_pos s 0 r := by
  have hrun : (run (CountedCore.step (smallCache 0 .writeBack).blockSize_pos)
      Unrestricted (CountedCore.start (smallCore 0 .writeBack).pol)
      [.core (.queueIo ⟨.read, fun _ => 7, 0, 4⟩), .core (.scan fun _ => 0),
        .core (.scan fun _ => 0), .core .scanEnd, .core (.fail 0 (-5)), .core (.work 0),
        .core (.work 0), .core (.work 0), .report 0]).map
      (fun s => decide (s.reported = [(0, -5)]) && (s.started[0]?).any fun r =>
        decide (1 ≤ r.length ∧ (createBlockRequests 2 Nat.two_pos 0 r).length < 2 ^ 32))
      = some true := by decide +kernel
  obtain ⟨s, hs, htest⟩ := Reachable.of_run_test hrun
  obtain ⟨hreported, hany⟩ := Bool.and_eq_true_iff.mp htest
  obtain ⟨r, hr, hlen⟩ := (Option.any_eq_true ..).mp hany
  obtain ⟨hlen, hk⟩ := of_decide_eq_true hlen
  exact ⟨s, r, hr, of_decide_eq_true hreported, request_completes_once _ _ _ s 0 r hs hr hlen hk⟩

end HDCS.Proof
