import HDCS.Proof.Batch
import HDCS.Proof.Completion

/-!
# The barrier of the batch

`prepare_request` is meant to return when everything has been written. But the
count that the workers wait for is zero before the callback runs: whoever looks at
it then goes on, and may free a buffer that `submit_request` has not read yet. Only
a worker that is alone cannot do that.
-/

namespace HDCS.Proof

open Lib ReplicatedRequest Lib.Machine List

variable {cfg : ReplicatedConfig} {s s' : ReplicatedRequest cfg}

/-- Once a worker is back, every block was handed in and every segment is in the store. -/
def Barrier (s : ReplicatedRequest cfg) : Prop :=
  (∃ v ∈ s.workers, isBack v = true) →
    (∀ v ∈ s.workers, v ≠ .preparing) ∧ ∀ x ∈ s.chain, ∃ y ∈ s.writes, y.1 = x ∧ 0 ≤ y.2

instance (s : ReplicatedRequest cfg) : Decidable (Barrier s) :=
  inferInstanceAs (Decidable ((∃ v ∈ s.workers, _) → _ ∧ _))

theorem writes_nonneg (h : Reachable step StoreWorks (start cfg) s) :
    ∀ y ∈ s.writes, 0 ≤ y.2 := by
  refine Reachable.invariant (I := fun s => ∀ y ∈ s.writes, 0 ≤ y.2)
    (fun y hy => absurd hy (by simp [start])) ?_ h
  intro s a s' hinv hok hs
  cases step_cases hs with
  | @write w x ops notifies ret hw =>
    intro y hy
    rcases mem_append.mp hy with hy | hy
    · exact hinv y hy
    · rw [mem_singleton.mp hy]
      exact hok
  | @finish w v _ _ =>
    obtain ⟨_, _, _, heq⟩ := completeBlock_eq (s.setWorker w .finished)
    rw [heq]
    exact hinv
  | @reply i m ret _ =>
    obtain ⟨_, _, _, heq⟩ := complete_eq ⟨.replica, ret⟩ _
    rw [heq]
    exact hinv
  | _ => exact hinv

theorem Submitted.barrier (h : Submitted s) (hpos : ∀ y ∈ s.writes, 0 ≤ y.2) : Barrier s := by
  refine fun _ => ⟨?_, ?_⟩
  · rintro v hv rfl
    cases h.late _ hv
  · intro x hx
    rw [← h.writes] at hx
    obtain ⟨y, hy, hyx⟩ := mem_map.mp hx
    exact ⟨y, hy, hyx, hpos y hy⟩

theorem barrier_of_one (hh : cfg.handsOver = true) (hk : cfg.blocks.length = 1)
    (h : Reachable step StoreWorks (start cfg) s) : Barrier s := by
  have hlen := length_workers h
  rcases phase_reachable hh (by omega) h with hphase | ⟨w, ops, hphase⟩ | hphase
  · -- nobody is past the count
    rintro ⟨v, hv, hback⟩
    have hearly := hphase.early v hv
    cases v <;> simp_all [isBack, isEarly]
  · rintro ⟨v, hv, hback⟩
    -- the only worker is the one that submits
    obtain ⟨i, hi⟩ := getElem?_of_mem hv
    have hw := hphase.worker
    have hiw : i = w := by
      have := lt_of_getElem? hi
      have := lt_of_getElem? hw
      omega
    rw [hiw, hw] at hi
    rw [← Option.some.inj hi] at hback
    cases hback
  · exact hphase.barrier (writes_nonneg h)

theorem barrier_of_zero (hh : cfg.handsOver = true) (hk : cfg.blocks.length % 256 = 0)
    (h : Reachable step StoreWorks (start cfg) s) : Barrier s := by
  rintro ⟨v, hv, hback⟩
  have hnone := (passing_reachable hh h).back
  have hpos : 0 < backCount s := countP_pos_iff.mpr ⟨v, hv, hback⟩
  omega

/-! ## How it is passed too early -/

theorem reachable_arrive {w b : Nat} (hh : cfg.handsOver = true)
    (h : Reachable step StoreWorks (start cfg) s)
    (hw : s.workers[w]? = some .preparing) (hb : cfg.blocks[w]? = some b)
    (hcount : 0 < s.sharedCount) :
    ∃ s', Reachable step StoreWorks (start cfg) s'
      ∧ s'.workers = s.workers.set w (if s.sharedCount = 1 then
          .submitting (submitRequest cfg.replicas s'.chain) true else .waiting)
      ∧ s'.sharedCount = s.sharedCount - 1 ∧ s'.writes = s.writes := by
  have hlt : w < s.workers.length := lt_of_getElem? hw
  obtain ⟨s₂, h₂, hset, hcount₂, hwrites⟩ : ∃ s₂,
      Reachable step StoreWorks (start cfg) s₂ ∧ s₂.workers = s.workers.set w .tested
        ∧ s₂.sharedCount = s.sharedCount ∧ s₂.writes = s.writes := by
    have h₁ := h.tail (a := Act.insert w) trivial (Stepped.insert hw hb hh).step_eq
    refine ⟨_, h₁.tail (a := Act.test w) trivial
      (Stepped.test (getElem?_set_self hlt) ?_).step_eq, set_set .., rfl, rfl⟩
    show s.sharedCount ≠ -1
    omega
  have hw₂ : s₂.workers[w]? = some .tested := by
    rw [hset]
    exact getElem?_set_self hlt
  by_cases hone : s.sharedCount = 1
  · refine ⟨_, h₂.tail (a := Act.decrement w) trivial
      (Stepped.last hw₂ (hcount₂.trans hone)).step_eq, ?_, ?_, hwrites⟩
    · rw [if_pos hone]
      show s₂.workers.set w _ = _
      rw [hset, set_set]
      rfl
    · rw [hone]
      rfl
  · refine ⟨_, h₂.tail (a := Act.decrement w) trivial
      (Stepped.decrement hw₂ (hcount₂ ▸ hone)).step_eq, ?_, ?_, hwrites⟩
    · rw [if_neg hone]
      show s₂.workers.set w _ = _
      rw [hset, set_set]
    · show s₂.sharedCount - 1 = _
      rw [hcount₂]

theorem reachable_gather (hh : cfg.handsOver = true) :
    ∀ i, i < cfg.blocks.length % 256 → ∃ s, Reachable step StoreWorks (start cfg) s
      ∧ (∀ j < cfg.blocks.length, s.workers[j]? = some (if j < i then .waiting else .preparing))
      ∧ s.sharedCount = (cfg.blocks.length % 256 : Nat) - i ∧ s.writes = []
  | 0, _ => by
    refine ⟨start cfg, .init, ?_, ?_, rfl⟩
    · intro j hj
      rw [if_neg (Nat.not_lt_zero _)]
      exact getElem?_replicate_of_lt hj
    · rw [show (start cfg).sharedCount = _ from armedCount_eq cfg]
      simp
  | i + 1, hi => by
    obtain ⟨s, hr, hworkers, hcount, hwrites⟩ := reachable_gather hh i (by omega)
    have hik : i < cfg.blocks.length := Nat.lt_of_lt_of_le (by omega) (Nat.mod_le _ 256)
    have hw : s.workers[i]? = some .preparing := by
      rw [hworkers i hik, if_neg (Nat.lt_irrefl _)]
    obtain ⟨s', hr', hset, hcount', hwrites'⟩ := reachable_arrive hh hr hw
      (getElem?_eq_getElem hik) (by omega)
    rw [if_neg (by omega)] at hset
    refine ⟨s', hr', ?_, by omega, hwrites'.trans hwrites⟩
    intro j hj
    rw [hset]
    by_cases hij : i = j
    · subst hij
      rw [getElem?_set_self (by rw [length_workers hr]; exact hik), if_pos (by omega)]
    · rw [getElem?_set_ne hij, hworkers j hj]
      by_cases hlt : j < i
      · rw [if_pos hlt, if_pos (by omega)]
      · rw [if_neg hlt, if_neg (by omega)]

theorem reachable_submit {w : Nat} :
    ∀ (ops : List SubmitOp) (s : ReplicatedRequest cfg),
      Reachable step StoreWorks (start cfg) s →
      s.workers[w]? = some (.submitting ops true) →
      ∃ s', Reachable step StoreWorks (start cfg) s'
        ∧ s'.workers = s.workers.set w (.submitting [] true) ∧ s'.sharedCount = s.sharedCount
  | [], s, hr, hw => by
    refine ⟨s, hr, ?_, rfl⟩
    obtain ⟨hlt, hget⟩ := List.getElem?_eq_some_iff.mp hw
    rw [← hget, set_getElem_self]
  | .message x replica :: ops, s, hr, hw => by
    have hlt : w < s.workers.length := lt_of_getElem? hw
    obtain ⟨s', hr', hset, hcount⟩ := reachable_submit ops _
      (hr.tail (a := Act.message w) trivial (Stepped.message hw).step_eq)
      (getElem?_set_self hlt)
    exact ⟨s', hr', hset.trans (set_set ..), hcount⟩
  | .write x :: ops, s, hr, hw => by
    have hlt : w < s.workers.length := lt_of_getElem? hw
    obtain ⟨s', hr', hset, hcount⟩ := reachable_submit ops _
      (hr.tail (a := Act.write w 0) (Int.le_refl 0) (Stepped.write hw).step_eq)
      (getElem?_set_self hlt)
    exact ⟨s', hr', hset.trans (set_set ..), hcount⟩

theorem reachable_release {w b : Nat} (hh : cfg.handsOver = true)
    (h : Reachable step StoreWorks (start cfg) s)
    (hw : s.workers[w]? = some .preparing) (hb : cfg.blocks[w]? = some b)
    (hcount : s.sharedCount = 1) :
    ∃ s', Reachable step StoreWorks (start cfg) s'
      ∧ s'.workers = (s.workers.map Worker.wake).set w .waiting ∧ s'.sharedCount = 0 := by
  have hlt : w < s.workers.length := lt_of_getElem? hw
  obtain ⟨s₁, hr₁, hset₁, hcount₁, -⟩ := reachable_arrive hh h hw hb (by omega)
  rw [if_pos hcount] at hset₁
  obtain ⟨s₂, hr₂, hset₂, hcount₂⟩ := reachable_submit _ s₁ hr₁ (w := w)
    (by rw [hset₁]; exact getElem?_set_self hlt)
  rw [hset₁, set_set] at hset₂
  have hw₂ : s₂.workers[w]? = some (.submitting [] true) := by
    rw [hset₂]
    exact getElem?_set_self hlt
  refine ⟨_, hr₂.tail (a := Act.notify w) trivial (Stepped.notify hw₂).step_eq, ?_, ?_⟩
  · show (s₂.workers.map Worker.wake).set w .waiting = _
    rw [hset₂, map_set, set_set]
  · show s₂.sharedCount = 0
    omega

theorem exists_early_return (hh : cfg.handsOver = true) (hk : 2 ≤ cfg.blocks.length % 256) :
    ∃ s, Reachable step StoreWorks (start cfg) s ∧ ¬ Barrier s := by
  have hle := Nat.mod_le cfg.blocks.length 256
  -- all it counts for but one are there, and the last one comes and has not submitted yet
  obtain ⟨s, hr, hworkers, hcount, hwrites⟩ :=
    reachable_gather hh (cfg.blocks.length % 256 - 1) (by omega)
  have hlast : cfg.blocks.length % 256 - 1 < cfg.blocks.length := by omega
  obtain ⟨s', hr', hset, hcount', hwrites'⟩ := reachable_arrive hh hr
    (by rw [hworkers _ hlast, if_neg (Nat.lt_irrefl _)]) (getElem?_eq_getElem hlast) (by omega)
  -- the first worker looks at the count
  have hw : s'.workers[0]? = some .waiting := by
    rw [hset, getElem?_set_ne (by omega), hworkers 0 (by omega), if_pos (by omega)]
  have hr'' := hr'.tail (a := Act.evaluate 0) trivial (Stepped.pass hw (by omega)).step_eq
  have hlt : 0 < s'.workers.length := lt_of_getElem? hw
  have hmem : Worker.returned ∈ (s'.setWorker 0 .returned).workers := mem_set hlt _
  refine ⟨_, hr'', fun hbarrier => ?_⟩
  obtain ⟨_, hwritten⟩ := hbarrier ⟨.returned, hmem, rfl⟩
  -- there is something to write, and nothing has been written
  obtain ⟨ids, hids⟩ := madeOf_reachable hh hr''
  have hin : cfg.blocks[0] ∈ ids := by
    rw [hids.mem 0 _ (getElem?_eq_getElem (by omega)), getElem?_map]
    exact congrArg (Option.map isIn) (getElem?_set_self hlt)
  obtain ⟨x, hx⟩ := exists_mem_of_ne_nil _ (hids.spec.2 (ne_nil_of_mem hin))
  obtain ⟨y, hy, _⟩ := hwritten x hx
  rw [show (s'.setWorker 0 .returned).writes = [] from hwrites'.trans hwrites] at hy
  cases hy

theorem exists_lone_return (hh : cfg.handsOver = true) (hk : cfg.blocks.length % 256 = 1)
    (htwo : 2 ≤ cfg.blocks.length) :
    ∃ s, Reachable step StoreWorks (start cfg) s ∧ ¬ Barrier s := by
  obtain ⟨s, hr, hworkers, hcount, hwrites⟩ := reachable_gather hh 0 (by omega)
  have hlen := length_workers hr
  obtain ⟨s₁, hr₁, hset₁, hcount₁⟩ := reachable_release hh hr (w := 0)
    (by rw [hworkers 0 (by omega)]; rfl) (getElem?_eq_getElem (by omega)) (by omega)
  have hw₁ : s₁.workers[0]? = some .waiting := by
    rw [hset₁]
    exact getElem?_set_self (by rw [length_map]; omega)
  have hr₂ := hr₁.tail (a := Act.evaluate 0) trivial (Stepped.pass hw₁ hcount₁).step_eq
  have hlt : 0 < s₁.workers.length := lt_of_getElem? hw₁
  refine ⟨_, hr₂, fun hbarrier => ?_⟩
  obtain ⟨hin, _⟩ := hbarrier ⟨.returned, mem_set hlt _, rfl⟩
  -- the second worker has not moved
  refine hin .preparing (mem_of_getElem? (i := 1) ?_) rfl
  show (s₁.workers.set 0 .returned)[1]? = some .preparing
  rw [getElem?_set_ne (by omega), hset₁, getElem?_set_ne (by omega), getElem?_map,
    hworkers 1 (by omega)]
  rfl

/--
**When the barrier holds.** For a WRITE whose blocks are handed to the batch, no
worker can be back too early exactly if there is one block, or if the count starts
at zero and nobody ever gets back.
-/
theorem barrier_iff (hh : cfg.handsOver = true) :
    (∀ s, Reachable step StoreWorks (start cfg) s → Barrier s)
      ↔ cfg.blocks.length = 1 ∨ cfg.blocks.length % 256 = 0 := by
  constructor
  · intro hall
    by_contra hnot
    push Not at hnot
    have hpos := length_blocks_pos cfg
    obtain ⟨s, hr, hbarrier⟩ : ∃ s,
        Reachable step StoreWorks (start cfg) s ∧ ¬ Barrier s := by
      -- with a remainder of one the first worker runs the callback, before the others come
      by_cases hone : cfg.blocks.length % 256 = 1
      · exact exists_lone_return hh hone (by omega)
      · exact exists_early_return hh (by omega)
    exact hbarrier (hall s hr)
  · rintro (hone | hzero) s hr
    · exact barrier_of_one hh hone hr
    · exact barrier_of_zero hh hzero hr

/-- The worker of a request of one block is back, and its block has been written. -/
theorem one_block_returns :
    ∃ s : ReplicatedRequest (smallConfig 1 .write 2 Nat.two_pos fun _ => 100),
      s.workers = [.returned] ∧ s.writes = [(⟨0, 2, 100⟩, 2)] ∧ Barrier s := by
  have hrun : (run step StoreWorks
      (start (smallConfig 1 .write 2 Nat.two_pos fun _ => 100))
      [.insert 0, .test 0, .decrement 0, .message 0, .write 0 2, .notify 0, .evaluate 0]).map
      (fun s => decide (s.workers = [.returned] ∧ s.writes = [(⟨0, 2, 100⟩, 2)])) = some true := by
    decide +kernel
  obtain ⟨s, hs, hworkers, hwrites⟩ := Reachable.of_run_decide hrun
  exact ⟨s, hworkers, hwrites, (barrier_iff rfl).mpr (Or.inl rfl) s hs⟩

/--
The second of two workers is about to run the callback. The first one is back
already and may free its buffer, which is the first thing that will be read.
-/
theorem first_worker_leaves :
    ∃ s : ReplicatedRequest (smallConfig 0 .write 4 (Nat.succ_pos 3) fun b => 100 + 1000 * b),
      Reachable step StoreWorks (start _) s
        ∧ s.workers = [.returned, .submitting [.write ⟨0, 2, 100⟩, .write ⟨1, 2, 1100⟩] true]
        ∧ s.writes = [] ∧ ¬ Barrier s := by
  have hrun : (run step StoreWorks
      (start (smallConfig 0 .write 4 (Nat.succ_pos 3) fun b => 100 + 1000 * b))
      [.insert 0, .insert 1, .test 1, .test 0, .decrement 0, .decrement 1, .evaluate 0]).map
      (fun s => decide (s.workers
          = [.returned, .submitting [.write ⟨0, 2, 100⟩, .write ⟨1, 2, 1100⟩] true]
        ∧ s.writes = [] ∧ ¬ Barrier s)) = some true := by decide +kernel
  exact Reachable.of_run_decide hrun

end HDCS.Proof
