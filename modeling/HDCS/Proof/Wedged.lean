import HDCS.Core.TierPolicy
import HDCS.Proof.Simulation

/-!
# A failed operation

`BlockOp::complete` reports an error to the request and stops there. The code
that hands the block over to the next chain is in `BlockRequestComplete`, which
is never sent: the block has no thread left, and `in_process` stays set, so the
mapper appends what comes later to a chain that nobody runs.

In the serial machine the failed chain is at the head of its block's queue and no
step takes it away (`Stuck.step`); through the hand-over, **whatever happens after
an operation has failed, nothing of its block is sent again and `in_process` stays
true** (`wedged_of_fail`). This is so for any policy, and hence for every chain of
the two there are.
-/

namespace HDCS.Proof

open Lib HDCSCore CachePolicy Function Lib.Machine HDCSCore

variable {n bs : Nat} {P : Policy n bs}

/-! ## The serial machine -/

def Stuck (s : Serial P) (b : Nat) : Prop := ∃ c cs, s.queue b = c :: cs ∧ c.failed = true

theorem Stuck.step {s s' : Serial P} {a : Serial.Act bs} {b : Nat} (h : Stuck s b)
    (hs : s.step a = some s') : Stuck s' b := by
  obtain ⟨c, cs, hq, hf⟩ := h
  -- a chain that can go on has not failed, so it is that of another block
  have hne : ∀ b' c' cs', s.queue b' = c' :: cs' → c'.failed = false → b ≠ b' := by
    rintro b' c' cs' hq' hf' rfl
    rw [hq] at hq'
    obtain ⟨rfl, rfl⟩ := List.cons.inj hq'
    rw [hf] at hf'
    cases hf'
  rcases Serial.step_cases hs with ⟨req, scratch, rfl, _, rfl⟩
    | ⟨b', c', cs', op, ops, rfl, hq', hf', _, _, rfl⟩
    | ⟨b', r, c', cs', op, ops, rfl, hq', hf', _, _, _, rfl⟩
    | ⟨b', c', cs', rfl, hq', hf', _, rfl⟩
  · by_cases hb : b = req.block
    · subst hb
      refine ⟨c, cs ++ [Serial.chainOf req scratch s.pol], ?_, hf⟩
      show update s.queue _ _ _ = _
      rw [update_self, hq]; rfl
    · exact ⟨c, cs, (update_of_ne hb _ _).trans hq, hf⟩
  · exact ⟨c, cs, (update_of_ne (hne b' c' cs' hq' hf') _ _).trans hq, hf⟩
  · exact ⟨c, cs, (update_of_ne (hne b' c' cs' hq' hf') _ _).trans hq, hf⟩
  · exact ⟨c, cs, (update_of_ne (hne b' c' cs' hq' hf') _ _).trans hq, hf⟩

theorem stuck_of_fail {s s' : Serial P} {b : Nat} {r : Int} (hs : s.step (.fail b r) = some s') :
    Stuck s' b := by
  obtain ⟨c, cs, op, ops, _, _, _, rfl⟩ := Serial.of_step_fail hs
  exact ⟨_, cs, update_self _ _ _, rfl⟩

/-! ## The core -/

theorem HandOver.of_stuck {w : Workers P} {s : Serial P} {b : Nat} (h : HandOver w s)
    (hs : Stuck s b) : w.inProcess b = true ∧ w.tokens b = [] := by
  obtain ⟨c, cs, hq, hf⟩ := hs
  have hst := h.stage b
  rw [hq] at hst
  cases hst with
  | atOp done k ks i failed hat =>
    have hfailed : failed = true := hf
    rw [hfailed] at hat
    exact ⟨hat.inProcess, hat.tokens⟩

theorem HandOver.next {hbs : 0 < bs} {f f' : HDCSCore P} {a : Act} {s : Serial P}
    (h : HandOver f.toWorkers s) (hs : f.step hbs a = some f') :
    ∃ s', HandOver f'.toWorkers s' ∧ (∀ b, Stuck s b → Stuck s' b)
      ∧ ∀ i r p, a = .fail i r → f.tasks[i]? = some (.send p) → Stuck s' (f.blockOf p) := by
  rcases h.step hs with ⟨hnone, h'⟩ | ⟨a', s', ha', hs', h'⟩
  · refine ⟨s, h', fun _ hb => hb, fun i r p ha ht => ?_⟩
    exact absurd hnone (by simp [ha, serialAct, ht])
  · refine ⟨s', h', fun b hb => hb.step hs', fun i r p ha ht => ?_⟩
    obtain rfl : a' = .fail (f.blockOf p) r := by simpa [ha, serialAct, ht] using ha'.symm
    exact stuck_of_fail hs'

theorem sent_of_tokens_nil {hbs : 0 < bs} {f f' : HDCSCore P} {a : Act} {b : Nat}
    (hs : f.step hbs a = some f') (hb : f.tokens b = []) : f'.sent b = f.sent b := by
  have hne : ∀ (i : Nat) (p : Ptr), f.tasks[i]? = some (.send p) → b ≠ f.blockOf p := by
    rintro i p ht rfl
    have := Workers.mem_tokens_of_send ht
    rw [hb] at this
    cases this
  cases step_moves hs with
  | map scratch req rest hsc hu hd => exact congrFun Workers.mapBlock_sent b
  | send i p op ht hop ha => exact recordSent_of_ne (hne i p ht)
  | locked i p ht hop =>
    exact (congrFun (Workers.lockedSection_sent i p _) b).trans (recordSent_of_ne (hne i p ht))
  | _ => rfl

/-- Any step the core can take. -/
abbrev AnyStep (_ : HDCSCore P) (_ : Act) : Prop := True

/--
The queue of a block carries on after its chain `k` has failed: the other chains
can still get through, and leave the block idle.
-/
def CarriesOn (hbs : 0 < bs) (f : HDCSCore P) (b k : Nat) : Prop :=
  ∃ f', Reachable (step hbs) AnyStep f f'
    ∧ (∀ k' ∈ f'.accepted b, k' ≠ k → f'.completeOp k' ∈ f'.sent b)
    ∧ f'.inProcess b = false ∧ P.inDiscardProcess f'.pol b = false

theorem wedged_of_fail {hbs : 0 < bs} {pol : P.State} {f f' : HDCSCore P} {i : Nat} {r : Int}
    {p : Ptr} (hr : Reachable (step hbs) AnyStep (start pol) f)
    (ht : f.tasks[i]? = some (.send p)) (hs : f.step hbs (.fail i r) = some f')
    {f'' : HDCSCore P} (hr' : Reachable (step hbs) AnyStep f' f'') :
    f''.inProcess (f.blockOf p) = true ∧ f''.sent (f.blockOf p) = f'.sent (f.blockOf p) := by
  obtain ⟨s, h, _⟩ : ∃ s, HandOver f.toWorkers s
      ∧ Reachable Serial.step (fun _ _ => True) (Serial.start pol) s :=
    HandOver.reachable (fun _ _ _ _ _ _ _ => trivial) (handOver_start pol) hr
  -- the failed chain is at the head of the queue, and stays there
  obtain ⟨s', h', _, hfail⟩ := h.next hs
  have hinv : (∃ s', HandOver f''.toWorkers s' ∧ Stuck s' (f.blockOf p))
      ∧ f''.sent (f.blockOf p) = f'.sent (f.blockOf p) := by
    refine hr'.invariant (I := fun g => (∃ s', HandOver g.toWorkers s' ∧ Stuck s' (f.blockOf p))
      ∧ g.sent (f.blockOf p) = f'.sent (f.blockOf p)) ⟨⟨s', h', hfail i r p rfl ht⟩, rfl⟩ ?_
    rintro g a g' ⟨⟨t, hg, hstuck⟩, hsent⟩ _ hstep
    obtain ⟨t', hg', hkeep, _⟩ := hg.next hstep
    exact ⟨⟨t', hg', hkeep _ hstuck⟩, (sent_of_tokens_nil hstep (hg.of_stuck hstuck).2).trans hsent⟩
  obtain ⟨⟨t, hg, hstuck⟩, hsent⟩ := hinv
  exact ⟨(hg.of_stuck hstuck).1, hsent⟩

theorem not_carriesOn_of_fail {hbs : 0 < bs} {pol : P.State} {f f' : HDCSCore P} {i : Nat}
    {r : Int} {p : Ptr}
    (hr : Reachable (step hbs) AnyStep (start pol) f)
    (ht : f.tasks[i]? = some (.send p)) (hs : f.step hbs (.fail i r) = some f') :
    ¬ CarriesOn hbs f' (f.blockOf p) p.chain := by
  rintro ⟨f'', hr', _, hidle, _⟩
  rw [(wedged_of_fail hr ht hs hr').1] at hidle
  cases hidle

/-- **An operation that fails takes its block with it, whatever the policy and the chain.** -/
theorem failed_op_wedges_block (P : Policy n bs) (hbs : 0 < bs) (pol : P.State)
    (f f' : HDCSCore P) (i : Nat) (r : Int) (p : Ptr)
    (hr : Reachable (step hbs) AnyStep (start pol) f)
    (ht : f.tasks[i]? = some (.send p)) (hs : f.step hbs (.fail i r) = some f') :
    f'.notified = f.notified ++ [f.completion p.chain r]
      ∧ (∀ f'', Reachable (step hbs) AnyStep f' f'' →
          f''.inProcess (f.blockOf p) = true ∧ f''.sent (f.blockOf p) = f'.sent (f.blockOf p))
      ∧ ¬ CarriesOn hbs f' (f.blockOf p) p.chain := by
  refine ⟨?_, fun _ hr' => wedged_of_fail hr ht hs hr', not_carriesOn_of_fail hr ht hs⟩
  cases step_moves hs with
  | fail _ _ q op hq _ _ _ =>
    rw [ht] at hq
    cases hq
    rfl

theorem exists_fail_of_run {hbs : 0 < bs} {pol : P.State} {acts : List Act}
    {q : HDCSCore P → Bool}
    (h : (run (step hbs) AnyStep (start pol) acts).map
      (fun f => decide (f.tasks[0]? = some (.send ⟨0, 0⟩) ∧ f.blockOf ⟨0, 0⟩ = 0
        ∧ f.notified.map Completion.r = [] ∧ (f.step hbs (.fail 0 (-5))).isSome = true
        ∧ q f = true)) = some true) :
    ∃ f f' : HDCSCore P, Reachable (step hbs) AnyStep (start pol) f
      ∧ f.tasks[0]? = some (.send ⟨0, 0⟩) ∧ f.blockOf ⟨0, 0⟩ = 0
      ∧ f.notified.map Completion.r = [] ∧ f.step hbs (.fail 0 (-5)) = some f' ∧ q f = true := by
  obtain ⟨f, hr, ht, hb, hn, hfail, hq⟩ := Reachable.of_run_decide h
  obtain ⟨f', hs⟩ := Option.isSome_iff_exists.mp hfail
  exact ⟨f, f', hr, ht, hb, hn, hs, hq⟩

/-- A READ is queued behind a READ whose first operation, a backend read, fails. -/
theorem read_behind_failed_read :
    ∃ f f' : HDCSCore (policy (smallCache 0 .writeBack)),
      Reachable (step (smallCache 0 .writeBack).blockSize_pos) AnyStep (smallCore 0 .writeBack) f
      ∧ f.accepted 0 = [0, 1]
      ∧ f.step (smallCache 0 .writeBack).blockSize_pos (.fail 0 (-5)) = some f'
      ∧ ¬ CarriesOn (smallCache 0 .writeBack).blockSize_pos f' 0 0 := by
  have hrun : (run (step (smallCache 0 .writeBack).blockSize_pos) AnyStep
      (smallCore 0 .writeBack)
      [.queueIo (blockRange .read 0), .scan (fun _ => 0), .scanEnd,
        .queueIo (blockRange .read 0), .scan (fun _ => 0), .scanEnd]).map
      (fun f => decide (f.tasks[0]? = some (.send ⟨0, 0⟩) ∧ f.blockOf ⟨0, 0⟩ = 0
        ∧ f.notified.map Completion.r = []
        ∧ (f.step (smallCache 0 .writeBack).blockSize_pos (.fail 0 (-5))).isSome = true
        ∧ decide (f.accepted 0 = [0, 1]) = true)) = some true := by decide +kernel
  obtain ⟨f, f', hr, ht, hb, _, hs, hq⟩ := exists_fail_of_run hrun
  have hnot := not_carriesOn_of_fail hr ht hs
  rw [hb] at hnot
  exact ⟨f, f', hr, of_decide_eq_true hq, hs, hnot⟩

/-- A tier over a volume of two blocks of two bytes each. -/
def smallTier : TierConfig where
  totalSize := 4
  blockSize := 2
  cacheDiscard := punchHole
  blockSize_pos := Nat.two_pos

/-- Both policies have such a chain: a cache miss, and a READ of the tier. -/
theorem failed_read_wedges_block :
    (∃ f' : HDCSCore (policy (smallCache 0 .writeBack)),
      f'.notified.map Completion.r = [-5]
        ∧ ¬ CarriesOn (smallCache 0 .writeBack).blockSize_pos f' 0 0)
    ∧ ∃ f' : HDCSCore (TierPolicy.policy smallTier),
      f'.notified.map Completion.r = [-5] ∧ ¬ CarriesOn smallTier.blockSize_pos f' 0 0 := by
  constructor
  · have hrun : (run (step (smallCache 0 .writeBack).blockSize_pos) AnyStep
        (smallCore 0 .writeBack)
        [.queueIo (blockRange .read 0), .scan (fun _ => 0), .scanEnd]).map
        (fun f => decide (f.tasks[0]? = some (.send ⟨0, 0⟩) ∧ f.blockOf ⟨0, 0⟩ = 0
          ∧ f.notified.map Completion.r = []
          ∧ (f.step (smallCache 0 .writeBack).blockSize_pos (.fail 0 (-5))).isSome = true
          ∧ true = true)) = some true := by decide +kernel
    obtain ⟨f, f', hr, ht, hb, hn, hs, _⟩ := exists_fail_of_run hrun
    obtain ⟨hrep, _, hnot⟩ := failed_op_wedges_block _ _ _ f f' 0 (-5) ⟨0, 0⟩ hr ht hs
    rw [hb] at hnot
    exact ⟨f', by rw [hrep, List.map_append, hn]; rfl, hnot⟩
  · have hrun : (run (step smallTier.blockSize_pos) AnyStep
        (start (P := TierPolicy.policy smallTier)
          (TierPolicy.new smallTier (fun _ => 0) (fun _ => 0) (fun _ => 0)))
        [.queueIo (blockRange .read 0), .scan (fun _ => 0), .scanEnd]).map
        (fun f => decide (f.tasks[0]? = some (.send ⟨0, 0⟩) ∧ f.blockOf ⟨0, 0⟩ = 0
          ∧ f.notified.map Completion.r = []
          ∧ (f.step smallTier.blockSize_pos (.fail 0 (-5))).isSome = true
          ∧ true = true)) = some true := by decide +kernel
    obtain ⟨f, f', hr, ht, hb, hn, hs, _⟩ := exists_fail_of_run hrun
    obtain ⟨hrep, _, hnot⟩ := failed_op_wedges_block _ _ _ f f' 0 (-5) ⟨0, 0⟩ hr ht hs
    rw [hb] at hnot
    exact ⟨f', by rw [hrep, List.map_append, hn]; rfl, hnot⟩

end HDCS.Proof
