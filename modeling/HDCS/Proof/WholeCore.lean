import HDCS.Proof.CountedCore
import HDCS.Proof.WriteBack

/-!
# The cache behind the core

The guarantees of the cache were proved of the serial machine. Every run of the
core is one of its runs, so they hold of the core: **what a request is completed
with is what the flat volume holds at its place in line** (`core_answers_flat`),
and **between any two steps of the core's threads every slot has one owner**
(`core_slotOwnership`).

A chain that ends is reported in the step in which its request counts it, so when
the client hears of a request all of it has been answered (`client_answered_flat`).
-/

namespace HDCS.Proof

open Lib HDCSCore CachePolicy Lib.Machine List

variable {cfg : CacheConfig} {cacheData backData : Bytes} {f : HDCSCore (policy cfg)}

def CoreWriteBackRun (f : HDCSCore (policy cfg)) (a : HDCSCore.Act) : Prop :=
  ∀ a' ∈ f.serialAct a, WriteBackRun () a'

theorem core_answers_flat (hmode : cfg.cacheMode ≠ .readOnly)
    (hr : Reachable (HDCSCore.step cfg.blockSize_pos) CoreWriteBackRun
      (HDCSCore.start (P := policy cfg) (fresh cfg cacheData backData)) f) :
    ∀ c ∈ f.notified, ∃ i : Nat, (f.mapped c.req.block)[i]? = some c.req
      ∧ Answers c.req
        (flat (block cfg.blockSize c.req.block backData) ((f.mapped c.req.block).take i))
        c.data := by
  obtain ⟨s, h, hs⟩ : ∃ s, HandOver f.toWorkers s ∧ Reachable Serial.step WriteBackRun
      (Serial.start (P := policy cfg) (fresh cfg cacheData backData)) s :=
    HandOver.reachable (fun _ _ _ a' _ ha ha' => by
      have := ha a' ha'
      cases a' <;> exact this) (handOver_start _) hr
  obtain ⟨hinv, hans⟩ := writeBack_reachable hmode hs
  have hflat := hinv.servesFlat hans
  intro c hc
  obtain ⟨i, hi⟩ := mem_iff_getElem?.mp (h.notified c hc)
  refine ⟨i, ?_, ?_⟩
  · rw [← h.accepted]; exact hflat.order _ i c hi
  · rw [← h.accepted]; exact hflat.read _ i c hi

theorem core_slotOwnership
    (hr : Reachable (HDCSCore.step cfg.blockSize_pos) NoFailure
      (HDCSCore.start (P := policy cfg) (fresh cfg cacheData backData)) f) :
    ∃ s, HandOver f.toWorkers s ∧ SlotOwnership s := by
  obtain ⟨s, h, hs⟩ : ∃ s, HandOver f.toWorkers s ∧ Reachable Serial.step ErrorFree
      (Serial.start (P := policy cfg) (fresh cfg cacheData backData)) s :=
    HandOver.reachable (fun _ _ _ _ _ => errorFree_of_noFailure) (handOver_start _) hr
  exact ⟨s, h, (control_reachable hs).slotOwnership⟩

/-! ## What the client hears -/

section Client

variable {n bs : Nat} {P : Policy n bs} {hbs : 0 < bs}

theorem notified_step {f f' : HDCSCore P} {a : HDCSCore.Act} (hs : f.step hbs a = some f') :
    f.notified ⊆ f'.notified ∧ ∀ k r, f.completes a = some (k, r) →
      ∃ c ∈ f'.notified, c.req = f'.reqOf k := by
  cases HDCSCore.step_moves hs with
  | notify i p callNext ht | fail i r p op ht hop hf hr =>
    refine ⟨subset_append_left _ _, fun k r hx => ?_⟩
    simp only [completes, ht, Option.some.injEq, Prod.mk.injEq] at hx
    exact ⟨_, mem_append_right _ mem_cons_self, congrArg f.reqOf hx.1⟩
  | map scratch req rest hsc hu hd =>
    refine ⟨?_, fun _ _ hx => absurd hx (by simp [completes])⟩
    rw [Workers.mapBlock_notified]
    exact List.Subset.refl _
  | send i p op ht hop ha =>
    exact ⟨List.Subset.refl _, fun _ _ hx => by simp [completes, ht] at hx⟩
  | locked i p ht hop =>
    refine ⟨?_, fun _ _ hx => by simp [completes, ht] at hx⟩
    rw [Workers.lockedSection_notified]
    exact List.Subset.refl _
  | _ => exact ⟨List.Subset.refl _, fun _ _ hx => absurd hx (by simp [completes])⟩

theorem notified_of_ended {pol : P.State} {s : CountedCore P}
    (h : Reachable (CountedCore.step hbs) Unrestricted (CountedCore.start pol) s) :
    ∀ e ∈ s.ended, ∃ c ∈ s.core.notified, c.req = s.core.reqOf e.chain := by
  induction h with
  | init => exact fun e he => absurd he not_mem_nil
  | @tail s s' a hr _ hs ih =>
    obtain ⟨t, -, hends⟩ := (countedRun_reachable hr).1.serial
    have hkept : ∀ {a : HDCSCore.Act} {core : HDCSCore P}, s.core.step hbs a = some core →
        ∀ e ∈ s.ended, ∃ c ∈ core.notified, c.req = core.reqOf e.chain := by
      intro a core hcore e he
      obtain ⟨c, hc, hreq⟩ := ih e he
      have hlt := hends.made _ (mem_map_of_mem he)
      have hsame := congrArg Chain.req ((coreKeeps_of_step hcore).chains _ hlt)
      exact ⟨c, (notified_step hcore).1 hc, hreq.trans hsame.symm⟩
    cases CountedCore.step_moves hs with
    | quiet a core hcore hcuts hcompletes | begin a core r hcore hcuts => exact hkept hcore
    | complete a core chain r hcore hcuts hcompletes hfits =>
      intro e he
      rcases mem_append.mp he with he | he
      · exact hkept hcore e he
      · rw [mem_singleton.mp he]
        exact (notified_step hcore).2 chain r hcompletes
    | report i req hreq => exact ih

/--
**No block request is lost, and none is made twice.** Whatever is parked and whatever fails, those a
request was cut into are at any time on `block_request_list` or in a chain, each in one place.
-/
theorem pieces_conserved {pol : P.State} {s : CountedCore P}
    (h : Reachable (CountedCore.step hbs) Unrestricted (CountedCore.start pol) s)
    {j : Nat} {r : Request} (hj : s.started[j]? = some r) :
    ((s.core.skipped ++ s.core.unscanned ++ (List.range s.core.nextChain).map s.core.reqOf).filter
      (·.req = j)).Perm (createBlockRequests bs hbs j r) := by
  rw [← cutOf_eq hj]
  exact (countedRun_reachable h).1.cut j

/-- One of two block requests has been mapped. -/
theorem pieces_conserved_mapped :
    ∃ (s : CountedCore (policy (smallCache 0 .writeBack))) (r : Request),
      s.core.unscanned.length = 1 ∧ s.core.nextChain = 1
        ∧ ((s.core.skipped ++ s.core.unscanned ++ [s.core.reqOf 0]).filter (·.req = 0)).Perm
          (createBlockRequests 2 Nat.two_pos 0 r) := by
  have hrun : (run (CountedCore.step (smallCache 0 .writeBack).blockSize_pos)
      Unrestricted (CountedCore.start (smallCore 0 .writeBack).pol)
      [.core (.queueIo ⟨.read, fun _ => 7, 0, 4⟩), .core (.scan fun _ => 0)]).map (fun s =>
        decide (s.core.unscanned.length = 1 ∧ s.core.nextChain = 1) && (s.started[0]?).isSome)
      = some true := by decide +kernel
  obtain ⟨s, hs, htest⟩ := Reachable.of_run_test hrun
  obtain ⟨hlen, hsome⟩ := Bool.and_eq_true_iff.mp htest
  obtain ⟨r, hr⟩ := Option.isSome_iff_exists.mp hsome
  obtain ⟨hunscanned, hnext⟩ := of_decide_eq_true hlen
  have hperm := pieces_conserved hs hr
  rw [hnext] at hperm
  exact ⟨s, r, hunscanned, hnext, hperm⟩

end Client

/-- The runs of the write-back guarantee, with what the requests count. -/
def ClientRun (s : CountedCore (policy cfg)) : CountedCore.Act → Prop
  | .core a => CoreWriteBackRun s.core a
  | .report _ => True

instance (s : CountedCore (policy cfg)) (a : CountedCore.Act) : Decidable (ClientRun s a) :=
  match a with
  | .core a => inferInstanceAs (Decidable (∀ a' ∈ s.core.serialAct a, _))
  | .report _ => .isTrue trivial

/--
**What a client hears of is done, and done right.** When `comp` of a request has been called, each
of the block requests it was cut into has been completed, with the bytes that the flat volume holds
at its place among the requests of the block.
-/
theorem client_answered_flat (hmode : cfg.cacheMode ≠ .readOnly) {s : CountedCore (policy cfg)}
    (hr : Reachable (CountedCore.step cfg.blockSize_pos) ClientRun
      (CountedCore.start (P := policy cfg) (fresh cfg cacheData backData)) s)
    {j : Nat} {r : Request} (hj : s.started[j]? = some r)
    (hk : (createBlockRequests cfg.blockSize cfg.blockSize_pos j r).length < 2 ^ 32)
    (hreported : reportedOf s j ≠ []) :
    ∀ q ∈ createBlockRequests cfg.blockSize cfg.blockSize_pos j r, ∃ c ∈ s.core.notified,
      c.req = q ∧ ∃ i : Nat, (s.core.mapped q.block)[i]? = some q
        ∧ Answers q (flat (block cfg.blockSize q.block backData) ((s.core.mapped q.block).take i))
          c.data := by
  have hcounted := countedRun_reachable hr.unrestricted
  have hcore : Reachable (HDCSCore.step cfg.blockSize_pos) CoreWriteBackRun
      (HDCSCore.start (P := policy cfg) (fresh cfg cacheData backData)) s.core := by
    refine hr.invariant (I := fun s => Reachable (HDCSCore.step cfg.blockSize_pos)
      CoreWriteBackRun (HDCSCore.start (P := policy cfg) (fresh cfg cacheData backData)) s.core)
      .init fun s a s' h ha hs => ?_
    cases CountedCore.step_moves hs with
    | quiet a core hcore _ _ | begin a core r hcore _ | complete a core chain r hcore _ _ _ =>
      exact .tail h ha hcore
    | report i req hreq => exact h
  intro q hq
  -- all of them have ended
  have hlen : 1 ≤ r.length := by
    refine Nat.pos_of_ne_zero fun hzero => ?_
    rw [createBlockRequests, hzero] at hq
    exact absurd hq not_mem_nil
  have hall : (endedOf s j).length = (createBlockRequests _ cfg.blockSize_pos j r).length := by
    by_contra hne
    have honce := hcounted.once hj hlen hk
    rw [if_neg hne] at honce
    exact hreported (length_eq_zero_iff.mp (by omega))
  have hperm := hcounted.1.subperm j
  rw [cutOf_eq hj] at hperm
  have hmem := (hperm.perm_of_length_le (by rw [length_map, hall])).mem_iff.mpr hq
  obtain ⟨e, he, rfl⟩ := mem_map.mp hmem
  obtain ⟨c, hc, hreq⟩ := notified_of_ended hr.unrestricted e (mem_of_mem_filter he)
  obtain ⟨i, hi, hans⟩ := core_answers_flat hmode hcore c hc
  rw [hreq] at hi hans
  exact ⟨c, hc, hreq, i, hi, hans⟩

/-- A READ of two blocks behind a WRITE of the first; the client hears of the READ. -/
theorem client_answered_flat_read :
    ∃ (s : CountedCore (policy (smallCache 0 .writeBack))) (r : Request),
      s.started[1]? = some r ∧ reportedOf s 1 = [0]
        ∧ ∀ q ∈ createBlockRequests 2 Nat.two_pos 1 r, ∃ c ∈ s.core.notified, c.req = q := by
  have hrun : (run (CountedCore.step (smallCache 0 .writeBack).blockSize_pos) ClientRun
      (CountedCore.start (smallCore 0 .writeBack).pol)
      ([.core (.queueIo (blockRange .write 0)), .core (.scan fun _ => 0), .core .scanEnd,
        .core (.queueIo ⟨.read, fun _ => 7, 0, 4⟩), .core (.scan fun _ => 0),
        .core (.scan fun _ => 0), .core .scanEnd]
        ++ List.replicate 12 (.core (.work 0)) ++ [.report 1])).map
      (fun s => decide (reportedOf s 1 = [0]) && (s.started[1]?).any fun r =>
        decide ((createBlockRequests 2 Nat.two_pos 1 r).length < 2 ^ 32)) = some true := by
    decide +kernel
  obtain ⟨s, hs, htest⟩ := Reachable.of_run_test hrun
  obtain ⟨hreported, hany⟩ := Bool.and_eq_true_iff.mp htest
  obtain ⟨r, hr, hk⟩ := (Option.any_eq_true ..).mp hany
  have hone := of_decide_eq_true hreported
  have hall := client_answered_flat (by decide) hs hr (of_decide_eq_true hk) (by rw [hone]; simp)
  exact ⟨s, r, hr, hone, fun q hq => (hall q hq).imp fun c hc => ⟨hc.1, hc.2.1⟩⟩

end HDCS.Proof
